import MimallocRs.Bitmap.Word
import MimallocRs.Foundations.Interleave.Prog

/-!
# The bitmap functions as programs

The functions of `bitmap.rs`. Each load of a field and each compare-exchange of a field is an
event of its own. A chunk is named by the locations of its fields, the chunkmap being a chunk as
well. `assert`s of debug builds are left out: what a release build does with a range that leaves
its chunk is to access a field that does not exist, which no machine answers.
-/

namespace MimallocRs

open Interleave Prog

/-- A word of a bitmap: a field of the chunkmap or of a chunk. -/
inductive Loc
  | map (f : ℕ)
  | chunk (c f : ℕ)
  deriving DecidableEq

/-- The events on a bitmap. -/
inductive BitAct : Type → Type
  /-- Load a word. -/
  | load (l : Loc) : BitAct (BitVec 64)
  /-- Exchange a word by a weak compare-exchange: the word seen when that fails. -/
  | cas (l : Loc) (old new : BitVec 64) : BitAct (Option (BitVec 64))

/-! ## Fields -/

/-- `bf_all_set`. -/
def bfAllSet (l : Loc) (mask : BitVec 64) : Prog BitAct Bool := do
  return (← perform (.load l)) &&& mask == mask

/-- `bf_all_clear`. -/
def bfAllClear (l : Loc) (mask : BitVec 64) : Prog BitAct Bool := do
  return (← perform (.load l)) &&& mask == 0#64

/-- `bf_set_mask`: set the bits of `mask`; whether the word changed. -/
def bfSetMask (l : Loc) (mask : BitVec 64) : Prog BitAct Bool := do
  let old ← perform (.load l)
  iterate (fun old => do
    if old ||| mask = old then return .inr false
    else
      match ← perform (.cas l old (old ||| mask)) with
      | none => return .inr true
      | some seen => return .inl seen) old

/-- `bf_try_clear_mask`: clear the bits of `mask` if all are set. -/
def bfTryClearMask (l : Loc) (mask : BitVec 64) : Prog BitAct Bool := do
  let old ← perform (.load l)
  iterate (fun old => do
    if old &&& mask ≠ mask then return .inr false
    else
      match ← perform (.cas l old (old &&& ~~~mask)) with
      | none => return .inr true
      | some seen => return .inl seen) old

/-- `count_ones`. -/
def countOnes (w : BitVec 64) : ℕ := (List.range 64).countP w.getLsbD

/-- The first shift at which `n` contiguous bits of `w` are set. -/
def findShift (w : BitVec 64) (n : ℕ) : Option ℕ :=
  (List.range (fieldBits + 1 - n)).find? fun shift => w &&& fieldMask shift n == fieldMask shift n

/-- `bf_find_and_clear_run`. -/
def bfFindAndClearRun (l : Loc) (n : ℕ) : Prog BitAct (Option ℕ) := do
  if n = 0 ∨ fieldBits < n then return none
  else
    let old ← perform (.load l)
    iterate (fun old => do
      if countOnes old < n then return .inr none
      else
        match findShift old n with
        | none => return .inr none
        | some shift =>
          match ← perform (.cas l old (old &&& ~~~fieldMask shift n)) with
          | none => return .inr (some shift)
          | some seen => return .inl seen) old

/-! ## Chunks -/

namespace BChunk

/-- `BChunk::is_set`. -/
def isSet (ch : ℕ → Loc) (cbit : ℕ) : Prog BitAct Bool :=
  bfAllSet (ch (cbit / fieldBits)) (fieldMask (cbit % fieldBits) 1)

/-- How many of the `remaining` bits from `bit` on lie in the field of `bit`. -/
def here (bit remaining : ℕ) : ℕ := min remaining (fieldBits - bit % fieldBits)

/-- `BChunk::for_each_field_mask`. -/
def forEachFieldMask (ch : ℕ → Loc) (cbit n : ℕ) (pred : Loc → BitVec 64 → Prog BitAct Bool) :
    Prog BitAct Bool :=
  iterate (fun (bit, remaining) => do
    if remaining = 0 then return .inr true
    else if ← pred (ch (bit / fieldBits)) (fieldMask (bit % fieldBits) (here bit remaining)) then
      return .inl (bit + here bit remaining, remaining - here bit remaining)
    else return .inr false) (cbit, n)

/-- `BChunk::is_set_n`. -/
def isSetN (ch : ℕ → Loc) (cbit n : ℕ) : Prog BitAct Bool := forEachFieldMask ch cbit n bfAllSet

/-- `BChunk::is_clear_n`. -/
def isClearN (ch : ℕ → Loc) (cbit n : ℕ) : Prog BitAct Bool :=
  forEachFieldMask ch cbit n bfAllClear

/-- `BChunk::set_n`. -/
def setN (ch : ℕ → Loc) (cbit n : ℕ) : Prog BitAct Unit :=
  iterate (fun (bit, remaining) => do
    if remaining = 0 then return .inr ()
    else
      let _ ← bfSetMask (ch (bit / fieldBits)) (fieldMask (bit % fieldBits) (here bit remaining))
      return .inl (bit + here bit remaining, remaining - here bit remaining)) (cbit, n)

/-- The clearing loop of `BChunk::try_clear_n`: whether all was cleared, and the fields and masks
cleared so far. -/
def clearFields (ch : ℕ → Loc) (cbit n : ℕ) : Prog BitAct (Bool × List (ℕ × BitVec 64)) :=
  iterate (fun (bit, remaining, cleared) => do
    if remaining = 0 then return .inr (true, cleared)
    else
      let f := bit / fieldBits
      let mask := fieldMask (bit % fieldBits) (here bit remaining)
      if ← bfTryClearMask (ch f) mask then
        return .inl (bit + here bit remaining, remaining - here bit remaining,
          cleared ++ [(f, mask)])
      else return .inr (false, cleared)) (cbit, n, [])

/-- The roll-back loop of `BChunk::try_clear_n`. -/
def rollBack (ch : ℕ → Loc) (cleared : List (ℕ × BitVec 64)) : Prog BitAct Unit :=
  forEach (fun p => do
    let _ ← bfSetMask (ch p.1) p.2
    return ()) cleared

/-- `BChunk::try_clear_n`. -/
def tryClearN (ch : ℕ → Loc) (cbit n : ℕ) : Prog BitAct Bool := do
  if cbit % fieldBits + n ≤ fieldBits then
    bfTryClearMask (ch (cbit / fieldBits)) (fieldMask (cbit % fieldBits) n)
  else
    let (ok, cleared) ← clearFields ch cbit n
    if ok then return true
    else
      rollBack ch cleared
      return false

/-- `BChunk::find_and_clear_n_spanning`. -/
def findAndClearNSpanning (ch : ℕ → Loc) (n : ℕ) : Prog BitAct (Option ℕ) :=
  iterate (fun start => do
    if start + n ≤ chunkBits then
      if ← isSetN ch start n then
        if ← tryClearN ch start n then return .inr (some start) else return .inl start
      else return .inl (start + 1)
    else return .inr none) 0

/-- The first attempt of `BChunk::find_and_clear_n`: a run inside one field. -/
def findInField (ch : ℕ → Loc) (n : ℕ) : Prog BitAct (Option ℕ) :=
  firstSome (fun f => do
    match ← bfFindAndClearRun (ch f) n with
    | some b => return some (f * fieldBits + b)
    | none => return none) (List.range chunkFields)

/-- The number of set bits in the given fields. -/
def countFree (ch : ℕ → Loc) : List ℕ → Prog BitAct ℕ
  | [] => return 0
  | f :: fs => do
    let w ← perform (.load (ch f))
    let rest ← countFree ch fs
    return countOnes w + rest

/-- The second attempt of `BChunk::find_and_clear_n`: a run across fields, if enough bits are
set. -/
def findAcross (ch : ℕ → Loc) (n : ℕ) : Prog BitAct (Option ℕ) := do
  let free ← countFree ch (List.range chunkFields)
  if free < n then return none else findAndClearNSpanning ch n

/-- `BChunk::find_and_clear_n`. -/
def findAndClearN (ch : ℕ → Loc) (n : ℕ) : Prog BitAct (Option ℕ) := do
  if n = 0 ∨ chunkBits < n then return none
  else if n ≤ fieldBits then
    match ← findInField ch n with
    | some b => return some b
    | none => findAcross ch n
  else findAcross ch n

/-- `BChunk::is_all_clear`. -/
def isAllClear (ch : ℕ → Loc) : Prog BitAct Bool :=
  allOf (fun f => do return (← perform (.load (ch f))) == 0#64) (List.range chunkFields)

end BChunk

/-! ## Bitmaps -/

namespace Bitmap

/-- `Bitmap::chunkmap_set`. -/
def chunkmapSet (c : ℕ) : Prog BitAct Unit := do
  let _ ← bfSetMask (.map (c / fieldBits)) (fieldMask (c % fieldBits) 1)
  return ()

/-- `Bitmap::chunkmap_clear_if_empty`. -/
def chunkmapClearIfEmpty (c : ℕ) : Prog BitAct Unit := do
  if ← BChunk.isAllClear (.chunk c) then
    if ← bfTryClearMask (.map (c / fieldBits)) (fieldMask (c % fieldBits) 1) then
      if ← BChunk.isAllClear (.chunk c) then return ()
      else chunkmapSet c
    else return ()
  else return ()

/-- `Bitmap::is_set`. -/
def isSet (idx : ℕ) : Prog BitAct Bool := BChunk.isSet (.chunk (idx / chunkBits)) (idx % chunkBits)

/-- `Bitmap::set_n`. -/
def setN (idx n : ℕ) : Prog BitAct Bool := do
  let beforeClear ← BChunk.isClearN (.chunk (idx / chunkBits)) (idx % chunkBits) n
  BChunk.setN (.chunk (idx / chunkBits)) (idx % chunkBits) n
  chunkmapSet (idx / chunkBits)
  return beforeClear

/-- `Bitmap::clear_n`. -/
def clearN (idx n : ℕ) : Prog BitAct Bool := do
  if ← BChunk.tryClearN (.chunk (idx / chunkBits)) (idx % chunkBits) n then
    chunkmapClearIfEmpty (idx / chunkBits)
    return true
  else return false

/-- `Bitmap::is_set_n`. -/
def isSetN (idx n : ℕ) : Prog BitAct Bool :=
  if chunkBits < idx % chunkBits + n then .ret false
  else BChunk.isSetN (.chunk (idx / chunkBits)) (idx % chunkBits) n

/-- `Bitmap::is_clear_n`. -/
def isClearN (idx n : ℕ) : Prog BitAct Bool :=
  if chunkBits < idx % chunkBits + n then .ret false
  else BChunk.isClearN (.chunk (idx / chunkBits)) (idx % chunkBits) n

/-- How many of the `remaining` bits from `bit` on lie in the chunk of `bit`. -/
def here (bit remaining : ℕ) : ℕ := min remaining (chunkBits - bit % chunkBits)

/-- `Bitmap::unsafe_set_n`. -/
def unsafeSetN (idx n : ℕ) : Prog BitAct Unit :=
  iterate (fun (bit, remaining) => do
    if remaining = 0 then return .inr ()
    else
      BChunk.setN (.chunk (bit / chunkBits)) (bit % chunkBits) (here bit remaining)
      chunkmapSet (bit / chunkBits)
      return .inl (bit + here bit remaining, remaining - here bit remaining)) (idx, n)

/-- `Bitmap::range_is_set`. -/
def rangeIsSet (idx n : ℕ) : Prog BitAct Bool :=
  iterate (fun (bit, remaining) => do
    if remaining = 0 then return .inr true
    else if ← BChunk.isSetN (.chunk (bit / chunkBits)) (bit % chunkBits) (here bit remaining) then
      return .inl (bit + here bit remaining, remaining - here bit remaining)
    else return .inr false) (idx, n)

/-- The clearing loop of `Bitmap::range_try_clear`: whether all was cleared, and how much. -/
def clearChunks (idx n : ℕ) : Prog BitAct (Bool × ℕ) :=
  iterate (fun (bit, remaining, done) => do
    if remaining = 0 then return .inr (true, done)
    else if ← BChunk.tryClearN (.chunk (bit / chunkBits)) (bit % chunkBits) (here bit remaining) then
      return .inl (bit + here bit remaining, remaining - here bit remaining,
        done + here bit remaining)
    else return .inr (false, done)) (idx, n, 0)

/-- The roll-back loop of `Bitmap::range_try_clear`. -/
def rollBack (idx done : ℕ) : Prog BitAct Unit :=
  iterate (fun (rbit, rb) => do
    if rb = 0 then return .inr ()
    else
      BChunk.setN (.chunk (rbit / chunkBits)) (rbit % chunkBits) (here rbit rb)
      return .inl (rbit + here rbit rb, rb - here rbit rb)) (idx, done)

/-- `Bitmap::range_try_clear` on a bitmap of `cc` chunks. -/
def rangeTryClear (cc idx n : ℕ) : Prog BitAct Bool := do
  let (ok, done) ← clearChunks idx n
  if ok then
    forEach (fun off =>
      if idx / chunkBits + off < cc then chunkmapClearIfEmpty (idx / chunkBits + off) else .ret ())
      (List.range ((n + chunkBits - 1) / chunkBits + 1))
    return true
  else
    rollBack idx done
    return false

/-- `Bitmap::try_find_and_clear_n_huge` on a bitmap of `cc` chunks. -/
def tryFindAndClearNHuge (cc n : ℕ) : Prog BitAct (Option ℕ) :=
  iterate (fun start => do
    if start + n ≤ cc * chunkBits then
      if ← rangeIsSet start n then
        if ← rangeTryClear cc start n then return .inr (some start) else return .inl start
      else return .inl (start + 1)
    else return .inr none) 0

/-- What `Bitmap::try_find_and_clear_n` does with chunk `c`. -/
def findInChunk (n c : ℕ) : Prog BitAct (Option ℕ) := do
  if ← BChunk.isSet .map c then
    match ← BChunk.findAndClearN (.chunk c) n with
    | some b =>
      chunkmapClearIfEmpty c
      return some (c * chunkBits + b)
    | none => return none
  else return none

/-- `Bitmap::try_find_and_clear_n` on a bitmap of `cc` chunks. -/
def tryFindAndClearN (cc n tseq : ℕ) : Prog BitAct (Option ℕ) :=
  if n = 0 then .ret none
  else if n ≤ chunkBits then
    firstSome (fun k => findInChunk n ((tseq % cc + k) % cc)) (List.range cc)
  else tryFindAndClearNHuge cc n

section Claim

variable {E : Type → Type} (φ : ∀ {β : Type}, BitAct β → E β) (claim : ℕ → Prog E Bool)

/-- What `Bitmap::try_find_and_claim` does with bit `b` of chunk `c`. The callback `claim` may
perform events of its own; `φ` embeds the events of the bitmap. -/
def claimBit (c b : ℕ) : Prog E (Option ℕ) := do
  if ← (BChunk.isSet (.chunk c) b).hoist φ then
    if ← claim (c * chunkBits + b) then
      let _ ← (clearN (c * chunkBits + b) 1).hoist φ
      return some (c * chunkBits + b)
    else return none
  else return none

/-- What `Bitmap::try_find_and_claim` does with chunk `c`. -/
def claimInChunk (c : ℕ) : Prog E (Option ℕ) := do
  if ← (BChunk.isSet .map c).hoist φ then firstSome (claimBit φ claim c) (List.range chunkBits)
  else return none

/-- `Bitmap::try_find_and_claim` on a bitmap of `cc` chunks. -/
def tryFindAndClaim (cc tseq : ℕ) : Prog E (Option ℕ) :=
  firstSome (fun k => claimInChunk φ claim ((tseq % cc + k) % cc)) (List.range cc)

end Claim

end Bitmap

end MimallocRs
