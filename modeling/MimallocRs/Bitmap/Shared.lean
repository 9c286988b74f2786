import MimallocRs.Bitmap.Bits
import MimallocRs.Foundations.Interleave.System

/-!
# One bitmap shared by any number of threads

`BitShared` is the words of a bitmap together with a history that no program reads: the ranges
that threads hold, the bits that a running call has taken out of the bitmap, and what a running
call has still to do for the chunkmap. `bitMachine` executes the events of `Bitmap/Prog.lean` on a
bitmap of `cc` chunks and keeps the history; an access outside the bitmap, which panics, has no
answer.

Two systems run on it. In `claimSystem` a thread gives back with `set_n` only a range it holds. In
`bitmapSystem` any thread may set any range.
-/

namespace MimallocRs

open Interleave

/-- The chunks that a word marks. Only the chunkmap marks any. -/
def Loc.marks : Loc → BitVec 64 → Set ℕ
  | .map f, w => {c | c / 64 = f ∧ w.getLsbD (c % 64) = true}
  | .chunk _ _, _ => ∅

/-- The field that a word has shown to be empty, if any. -/
def Loc.empties : Loc → BitVec 64 → Set (ℕ × ℕ)
  | .map _, _ => ∅
  | .chunk c f, w => {p | p = (c, f) ∧ w = 0#64}

/-- A bitmap and its history. -/
structure BitShared (Tid : Type) where
  word : Words
  /-- History: the ranges, index and length, that a thread holds. -/
  held : Tid → List (ℕ × ℕ)
  /-- History: the bits that the running call of a thread has cleared, or is giving back, and not
  set again. -/
  taken : Tid → Set ℕ
  /-- History: the chunks that the running call of a thread is to mark in the chunkmap. -/
  owes : Tid → Set ℕ
  /-- History: the fields that the running call of a thread is to look at again, as it has cleared
  the mark of their chunk. -/
  watch : Tid → Set (ℕ × ℕ)

namespace BitShared

variable {Tid : Type} [DecidableEq Tid]

/-- The set bits of a bitmap of `cc` chunks. -/
def setBits (cc : ℕ) (s : BitShared Tid) : Set ℕ := bitsOf cc s.word

/-- The chunkmap marks chunk `c`. -/
def Marked (s : BitShared Tid) (c : ℕ) : Prop :=
  (s.word (.map (c / 64))).getLsbD (c % 64) = true

/-- The bits that a thread holds. -/
def heldBits (s : BitShared Tid) (t : Tid) : Set ℕ := {j | ∃ r ∈ s.held t, j ∈ bitRange r.1 r.2}

/-- Thread `t` has seen the word `w` at `l`: it has nothing more to do for the chunks that are
marked and the fields that are empty. -/
def observe (s : BitShared Tid) (t : Tid) (l : Loc) (w : BitVec 64) : BitShared Tid :=
  { s with
    owes := Function.update s.owes t (s.owes t \ l.marks w)
    watch := Function.update s.watch t
      {p ∈ s.watch t | p.1 ∉ l.marks w ∧ p ∉ l.empties w} }

/-- Thread `t` exchanges the word `old` at `l` for `new`. -/
def exchange (s : BitShared Tid) (t : Tid) (l : Loc) (old new : BitVec 64) : BitShared Tid :=
  { s with
    word := Function.update s.word l new
    taken := Function.update s.taken t
      ((s.taken t ∪ l.bits (old &&& ~~~new)) \ l.bits (new &&& ~~~old))
    watch := Function.update s.watch t
      (s.watch t ∪ {p | p.1 ∈ l.marks (old &&& ~~~new) ∧ p.2 < 8}) }

section Exchange

variable (s : BitShared Tid) (t : Tid) (l : Loc) (old new : BitVec 64)

@[simp] theorem exchange_word : (s.exchange t l old new).word l = new := Function.update_self ..

@[simp] theorem exchange_word_of_ne {l' : Loc} (h : l' ≠ l) :
    (s.exchange t l old new).word l' = s.word l' := Function.update_of_ne h ..

@[simp] theorem exchange_taken : (s.exchange t l old new).taken t =
    (s.taken t ∪ l.bits (old &&& ~~~new)) \ l.bits (new &&& ~~~old) := Function.update_self ..

@[simp] theorem exchange_heldBits (u : Tid) :
    (s.exchange t l old new).heldBits u = s.heldBits u := rfl

@[simp] theorem exchange_owes : (s.exchange t l old new).owes = s.owes := rfl

@[simp] theorem exchange_watch : (s.exchange t l old new).watch t =
    s.watch t ∪ {p | p.1 ∈ l.marks (old &&& ~~~new) ∧ p.2 < 8} := Function.update_self ..

@[simp] theorem exchange_watch_of_ne {u : Tid} (h : u ≠ t) :
    (s.exchange t l old new).watch u = s.watch u := Function.update_of_ne h ..

end Exchange

/-- The events on a bitmap of `cc` chunks. -/
def exec {β : Type} (cc : ℕ) (t : Tid) (e : BitAct β) (s : BitShared Tid) (choice : ℕ) :
    Option (β × BitShared Tid) :=
  match e with
  | .load l => if l.Valid cc then some (s.word l, s.observe t l (s.word l)) else none
  | .cas l old new =>
    if ¬ l.Valid cc then none
    else if s.word l = old ∧ choice = 0 then
      some (none, (s.exchange t l old new).observe t l new)
    else some (some (s.word l), s.observe t l (s.word l))

/-- Thread `t` gives back a range it holds: its bits are now the running call's. -/
def giveBack (s : BitShared Tid) (t : Tid) (idx n : ℕ) : Option (BitShared Tid) :=
  if (idx, n) ∈ s.held t then
    some { s with
      held := Function.update s.held t ((s.held t).erase (idx, n))
      taken := Function.update s.taken t (s.taken t ∪ bitRange idx n) }
  else none

/-- Thread `t` has been told that it holds a range. -/
def keep (s : BitShared Tid) (t : Tid) (idx n : ℕ) : BitShared Tid :=
  { s with
    held := Function.update s.held t ((idx, n) :: s.held t)
    taken := Function.update s.taken t (s.taken t \ bitRange idx n) }

/-- A bitmap with the given words that no thread has used. -/
def init (word : Words) : BitShared Tid where
  word := word
  held := fun _ => []
  taken := fun _ => ∅
  owes := fun _ => ∅
  watch := fun _ => ∅

end BitShared

/-- The events of one bitmap of `cc` chunks. -/
def bitMachine (Tid : Type) [DecidableEq Tid] (cc : ℕ) : Machine BitAct Tid (BitShared Tid) where
  exec t e s choice := s.exec cc t e choice

/-- The calls on a bitmap. -/
inductive BitOp
  | find (n tseq : ℕ) | clearN (idx n : ℕ) | setN (idx n : ℕ)
  deriving DecidableEq

/-- What the calls return. -/
abbrev BitOp.Res : BitOp → Type
  | .find _ _ => Option ℕ
  | .clearN _ _ | .setN _ _ => Bool

/-- What the calls run. -/
def BitOp.prog (cc : ℕ) : (o : BitOp) → Prog BitAct o.Res
  | .find n tseq => Bitmap.tryFindAndClearN cc n tseq
  | .clearN idx n => Bitmap.clearN idx n
  | .setN idx n => Bitmap.setN idx n

/-- The range that a call has claimed for its caller. -/
def BitOp.claimed : (o : BitOp) → o.Res → Option (ℕ × ℕ)
  | .find n _, r => r.map fun idx => (idx, n)
  | .clearN idx n, r => if r then some (idx, n) else none
  | .setN _ _, _ => none

variable (Tid : Type) [DecidableEq Tid] (cc : ℕ)

/-- Threads claim ranges of a bitmap and give back what they hold. -/
def claimSystem : System BitAct Tid BitOp BitOp.Res (BitShared Tid) where
  toMachine := bitMachine Tid cc
  prog _ o := o.prog cc
  start
    | _, .find _ _, s => some s
    | _, .clearN idx n, s => if idx + n ≤ cc * chunkBits then some s else none
    | t, .setN idx n, s => s.giveBack t idx n
  finish t o r s :=
    match o.claimed r with
    | some (idx, n) => s.keep t idx n
    | none => s

/-- Threads set and clear ranges of a bitmap. A thread that starts `set_n` is to mark the chunk. -/
def bitmapSystem : System BitAct Tid BitOp BitOp.Res (BitShared Tid) where
  toMachine := bitMachine Tid cc
  prog _ o := o.prog cc
  start
    | _, .find _ _, s => some s
    | _, .clearN idx n, s => if idx + n ≤ cc * chunkBits then some s else none
    | t, .setN idx n, s =>
      if idx + n ≤ cc * chunkBits then
        some { s with owes := Function.update s.owes t {idx / chunkBits} }
      else none
  finish _ _ _ s := s

end MimallocRs
