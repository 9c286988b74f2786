import MimallocRs.Client.Rules

/-!
# The operations keep the invariant of a page and its blocks

What each operation leaves of what its thread knows, from the rules of `Client/Rules.lean`. The
parts of a page function that only move blocks are carried over from `Page/Outline.lean`.
-/

namespace MimallocRs

open Interleave Prog

variable {ar : Area} {t : ℕ} {α β : Type} {g : Ghost} {h : Know} {b : Blk}

namespace Client

@[simp] theorem onPage_ret (a : α) : onPage (.ret a) = .ret a := rfl

@[simp] theorem onPage_act (e : PageAct β) (k : β → Prog PageAct α) :
    onPage (.act e k) = .act (.page e) fun b => onPage (k b) := rfl

@[simp] theorem onPage_bind (p : Prog PageAct α) (f : α → Prog PageAct β) :
    onPage (p.bind f) = (onPage p).bind fun a => onPage (f a) :=
  Prog.hoist_bind _ p f

end Client

/-- Between two operations: the thread frees nothing, has returned what it has popped, and if it
holds the page, the page carries its id or has been released. -/
structure ClientIdle (g : Ghost) (h : Know) : Prop where
  freeing : g.freeing = none
  captured : g.captured = none
  got : h.got = none
  own : g.own = true → h.stamped = true ∨ h.gone = true

theorem Know.emptied_eq (hem : h.emptied = false) : { h with emptied := false } = h := by
  rw [← hem]

theorem Know.stamped_eq (hs : h.stamped = false) : { h with stamped := false } = h := by
  rw [← hs]

/-! ## Programs of the page -/

theorem capture_allows : Page.capture.Every (h.Allows ar) := by
  refine ⟨fun _ => ⟨trivial, fun w => ?_⟩, fun _ => trivial⟩
  obtain ⟨_ | tf, o⟩ := w
  · trivial
  · refine ⟨fun ho hn => ?_, fun r => ?_⟩
    · cases ho.symm.trans hn
    · cases r <;> trivial

theorem spliceAll_allows {tf : Blk} (hc : h.cleared = true) (hem : h.emptied = false) :
    (Page.spliceAll tf).Every (h.Allows ar) := by
  refine ⟨fun tf => ⟨⟨hc, hem⟩, fun r => ?_⟩, fun _ => trivial⟩
  cases r <;> trivial

theorem threadFreePush_allows : (Page.threadFreePush b).Every (h.Allows ar) := by
  refine ⟨fun _ => ⟨trivial, fun w => ⟨trivial, fun _ => ⟨fun _ hn => ?_, fun r => ?_⟩⟩⟩,
    fun _ => trivial⟩
  · cases hn
  · cases r <;> trivial

theorem claimOwnership_allows : Page.claimOwnership.Every (h.Allows ar) := by
  refine ⟨fun _ => ⟨trivial, fun w => ?_⟩, fun _ => trivial⟩
  obtain ⟨_, _ | _⟩ := w
  · refine ⟨fun _ hn => ?_, fun r => ?_⟩
    · cases hn
    · cases r <;> trivial
  · trivial

theorem setUnowned_allows (hs : h.stamped = false) (hg : h.gone = false) (hem : h.emptied = false) :
    Page.setUnowned.Every (h.Allows ar) := by
  refine ⟨fun _ => ⟨trivial, fun w => ⟨fun _ _ => ⟨hs, hg, hem⟩, fun r => ?_⟩⟩, fun _ => trivial⟩
  cases r <;> trivial

theorem unabandonIfMapped_allows : Page.unabandonIfMapped.Every (h.Allows ar) := by
  simp only [Page.unabandonIfMapped, Page.isAbandonedMapped, bind_eq, pure_eq, perform_bind]
  refine ⟨trivial, fun id => ?_⟩
  simp only [ret_bind]
  split
  · exact ⟨trivial, fun _ => trivial⟩
  · trivial

namespace ClientSafe

/-! ## Collecting -/

theorem collect (hown : g.own = true) (hcap : g.captured = none) (hem : h.emptied = false) :
    ClientSafe ar t (Client.onPage Page.collect) g h fun _ g' =>
      ∃ g₁, g' = (g₁, h) ∧ g₁.toHold = g.toHold := by
  simp only [Page.collect, bind_eq, perform_bind, Client.onPage_bind]
  apply Safe.bind
  apply (onPage capture_allows (Page.capture_safe hown hcap)).mono
  rintro r _ ⟨g₁, rfl, hg₁⟩
  have hown₁ : g₁.own = true := (congrArg Hold.own hg₁).trans hown
  cases r with
  | none =>
    apply quiet (e := .adoptLocal) trivial (K := fun _ g' => g' = { g₁ with free := none })
      (PageSafe.adoptLocal hown₁ (Safe.ret rfl))
    rintro - _ rfl
    exact Safe.ret ⟨_, rfl, by rw [hg₁, ← hcap]⟩
  | some tf =>
    show ClientSafe ar t (.act (.page .clearZero) fun _ => (Client.onPage (Page.spliceAll tf)).bind
      fun _ => .act (.page .adoptLocal) .ret) g₁ h _
    apply clearZero
    apply Safe.bind
    apply (onPage (spliceAll_allows (h := { h with cleared := true }) rfl hem)
      (Page.spliceAll_safe hown₁ (congrArg Hold.captured hg₁))).mono
    rintro - _ ⟨g₂, rfl, hg₂⟩
    apply adoptLocal ((congrArg Hold.own hg₂).trans hown₁)
    exact Safe.ret ⟨_, rfl, by rw [hg₂, hg₁, ← hcap]⟩

/-- The holder reads the head of `free`. -/
theorem free {k : Option Blk → Prog ClientAct α} {Q : α → Ghost × Know → Prop}
    (hown : g.own = true) (hk : ∀ v, ClientSafe ar t (k v) { g with free := some v } h Q) :
    ClientSafe ar t (.act (.page .free) k) g h Q := by
  apply quiet (e := .free) trivial (K := fun v g' => g' = { g with free := some v })
    (PageSafe.free hown fun v => Safe.ret rfl)
  rintro v _ rfl
  exact hk v

theorem extendFree {k : Unit → Prog ClientAct α} {Q : α → Ghost × Know → Prop}
    (hown : g.own = true) (hk : ClientSafe ar t (k ()) { g with free := none } h Q) :
    ClientSafe ar t (.act (.page .extendFree) k) g h Q := by
  apply quiet (e := .extendFree) trivial (K := fun _ g' => g' = { g with free := none })
    (PageSafe.extendFree hown (Safe.ret rfl))
  rintro - _ rfl
  exact hk

theorem isFull (hown : g.own = true) (hcap : g.captured = none) (hem : h.emptied = false) :
    ClientSafe ar t (Client.onPage Page.isFull) g h fun _ g' =>
      ∃ g₁, g' = (g₁, h) ∧ g₁.toHold = g.toHold := by
  simp only [Page.isFull, bind_eq, pure_eq, perform_bind, Client.onPage_act]
  apply free hown
  intro v
  cases v with
  | some b => exact Safe.ret ⟨_, rfl, rfl⟩
  | none =>
    show ClientSafe ar t (Client.onPage (Page.collect.bind _)) _ _ _
    rw [Client.onPage_bind]
    apply Safe.bind
    apply (collect (g := { g with free := some none }) hown hcap hem).mono
    rintro - _ ⟨g₁, rfl, hg₁⟩
    apply free ((congrArg Hold.own hg₁).trans hown)
    intro v
    cases v with
    | some b => exact Safe.ret ⟨_, rfl, hg₁⟩
    | none =>
      apply quiet (e := .atCapacity) (g := { g₁ with free := some none }) trivial
        (K := fun _ g' => g'.toHold = g.toHold)
        (PageSafe.atCapacity fun _ => Safe.ret hg₁)
      exact fun _ _ hg => Safe.ret ⟨_, rfl, hg⟩

/-! ## Allocating -/

/-- What a thread knows when it has popped a block. -/
def popped (h : Know) : Option Blk → Know
  | none => h
  | some b => { h with got := some b, zero := fun _ => False }

section AllocPage

variable (hown : g.own = true) (hcap : g.captured = none) (hem : h.emptied = false)
  (hgone : h.gone = false) (hhuge : ar.huge = false)
include hown hcap hem hgone hhuge

theorem allocSlow : ClientSafe ar t (Client.onPage Page.allocSlow) g h fun r g' =>
    (∃ g₁, g' = (g₁, popped h r) ∧ g₁.toHold = g.toHold) ∧ ∀ b ∈ r, b < ar.reserved := by
  simp only [Page.allocSlow, bind_eq, pure_eq, perform_bind, Client.onPage_bind]
  apply Safe.bind
  apply (collect hown hcap hem).mono
  rintro - _ ⟨g₁, rfl, hg₁⟩
  have hown₁ : g₁.own = true := (congrArg Hold.own hg₁).trans hown
  apply free hown₁
  intro v
  cases v with
  | some b =>
    apply pop (g := { g₁ with free := some (some b) }) hown₁ rfl hhuge hgone hem
    exact fun hb => Safe.ret ⟨⟨_, rfl, hg₁⟩, by simpa using hb⟩
  | none =>
    apply extendFree (g := { g₁ with free := some none }) hown₁
    apply free (g := { g₁ with free := none }) hown₁
    intro v
    cases v with
    | none => exact Safe.ret ⟨⟨_, rfl, hg₁⟩, by simp⟩
    | some b =>
      apply pop (g := { g₁ with free := some (some b) }) hown₁ rfl hhuge hgone hem
      exact fun hb => Safe.ret ⟨⟨_, rfl, hg₁⟩, by simpa using hb⟩

theorem allocPage : ClientSafe ar t (Client.onPage Page.alloc) g h fun r g' =>
    (∃ g₁, g' = (g₁, popped h r) ∧ g₁.toHold = g.toHold) ∧ ∀ b ∈ r, b < ar.reserved := by
  simp only [Page.alloc, bind_eq, pure_eq, perform_bind, Client.onPage_act]
  apply free hown
  intro v
  cases v with
  | none => exact allocSlow (g := { g with free := some none }) hown hcap hem hgone hhuge
  | some b =>
    apply pop (g := { g with free := some (some b) }) hown rfl hhuge hgone hem
    exact fun hb => Safe.ret ⟨⟨_, rfl, rfl⟩, by simpa using hb⟩

end AllocPage

end ClientSafe

/-- What a thread knows that is about to allocate: the block of a huge page has been served. -/
structure Asking (ar : Area) (g : Ghost) (h : Know) : Prop where
  own : g.own = true
  captured : g.captured = none
  freeing : g.freeing = none
  stamped : h.stamped = true
  gone : h.gone = false
  emptied : h.emptied = false
  got : h.got = if ar.huge then some 0 else none
  zero : h.zero = fun _ => False

/-- A thread has popped the block `b`, and `size` bytes at `p` lie in it. -/
structure Served (ar : Area) (size p : ℕ) (b : Blk) (h : Know) : Prop where
  got : h.got = some b
  lt : b < ar.reserved
  inside : ar.Inside p b
  size_le : p + size ≤ ar.blockStart b + ar.blockSize
  flagged : p ≠ ar.blockStart b → h.flagged = true

/-- What a thread knows when an allocation of `size` bytes has answered `r`. -/
structure Answered (ar : Area) (size : ℕ) (r : Option ℕ) (g : Ghost) (h : Know) : Prop where
  captured : g.captured = none
  freeing : g.freeing = none
  stamped : h.stamped = true
  none : r = none → h.got = none
  some : ∀ p, r = some p → ∃ b, Served ar size p b h

namespace ClientSafe

/-- `alloc`: the start of a block. -/
theorem alloc {size : ℕ} (ha : Asking ar g h) (hsize : size ≤ ar.blockSize) :
    ClientSafe ar t (Client.alloc ar) g h fun r g' => Answered ar size r g'.1 g'.2 ∧
      ∀ p, r = some p → ∃ b, p = ar.blockStart b ∧ g'.2.got = some b := by
  have served : ∀ (b : Blk) (h' : Know), b < ar.reserved → h'.got = some b →
      Served ar size (ar.blockStart b) b h' := fun b h' hb hg =>
    ⟨hg, hb, Area.inside_blockStart, Nat.add_le_add_left hsize _, fun hne => absurd rfl hne⟩
  unfold Client.alloc
  split
  · next hh =>
    have hgot : h.got = some 0 := by rw [ha.got, if_pos hh]
    have h0 : 0 < ar.reserved := by
      unfold Area.reserved
      rw [if_pos hh]
      exact Nat.one_pos
    refine Safe.ret ⟨⟨ha.captured, ha.freeing, ha.stamped, fun h => (by cases h), ?_⟩, ?_⟩
    · intro p hp
      cases hp
      exact ⟨0, served 0 h h0 hgot⟩
    · intro p hp
      cases hp
      exact ⟨0, rfl, hgot⟩
  · next hh =>
    have hhuge : ar.huge = false := Bool.eq_false_iff.mpr hh
    have hgot : h.got = none := by rw [ha.got, if_neg hh]
    simp only [bind_eq, pure_eq]
    apply Safe.bind
    apply (allocPage ha.own ha.captured ha.emptied ha.gone hhuge).mono
    rintro r _ ⟨⟨g₁, rfl, hg₁⟩, hlt⟩
    have hcap₁ : g₁.captured = none := (congrArg Hold.captured hg₁).trans ha.captured
    have hfreeing₁ : g₁.freeing = none := (congrArg Hold.freeing hg₁).trans ha.freeing
    cases r with
    | none =>
      exact Safe.ret ⟨⟨hcap₁, hfreeing₁, ha.stamped, fun _ => hgot, fun p hp => (by cases hp)⟩,
        fun p hp => (by cases hp)⟩
    | some b =>
      refine Safe.ret ⟨⟨hcap₁, hfreeing₁, ha.stamped, fun h => (by cases h), ?_⟩, ?_⟩
      · intro p hp
        cases hp
        exact ⟨b, served b _ (hlt b rfl) rfl⟩
      · intro p hp
        cases hp
        exact ⟨b, rfl, rfl⟩

end ClientSafe

/-- The over-allocated block has room for the aligned pointer. -/
theorem aligned_lt {size align : ℕ} (hpow : align.isPowerOfTwo) (halign : miIntptrSize < align)
    (hle : size + (align - 1) ≤ ar.blockSize) : align - 1 < ar.blockSize := by
  obtain ⟨k, rfl⟩ := hpow
  obtain ⟨n, hn⟩ := ar.word_dvd
  unfold miIntptrSize at halign hn
  cases k with
  | zero => omega
  | succ k =>
    rw [Nat.pow_succ] at *
    omega

namespace ClientSafe

theorem allocAligned {size align : ℕ} (ha : Asking ar g h) (hpow : align.isPowerOfTwo)
    (hlt : Client.requestOf size align < usizeRange)
    (hle : Client.requestOf size align ≤ ar.blockSize) :
    ClientSafe ar t (Client.allocAligned ar size align) g h fun r g' =>
      Answered ar size r g'.1 g'.2 := by
  unfold Client.requestOf at hlt hle
  unfold Client.allocAligned
  split
  · next hsmall =>
    rw [if_pos hsmall] at hle
    exact (alloc ha hle).mono fun r g' hr => hr.1
  next hbig =>
  rw [if_neg hbig] at hlt hle
  rw [if_neg (Nat.not_le.mpr hlt)]
  simp only [bind_eq, pure_eq]
  apply Safe.bind
  apply (alloc ha hle).mono
  rintro r ⟨g₁, h₁⟩ ⟨ha₁, hstart⟩
  cases r with
  | none =>
    exact Safe.ret ⟨ha₁.captured, ha₁.freeing, ha₁.stamped, ha₁.none, fun p hp => (by cases hp)⟩
  | some p =>
    obtain ⟨b, hs⟩ := ha₁.some p rfl
    obtain ⟨c, rfl, hgot⟩ := hstart p rfl
    obtain rfl : c = b := Option.some.inj (hgot.symm.trans hs.got)
    have halign := aligned_lt hpow (Nat.lt_of_not_le hbig) hle
    have hend := Area.blockStart_add_le hs.lt
    have hmapped := ar.mapped_le
    obtain ⟨hge, hup, -⟩ := alignUp_spec (x := ar.blockStart c)
      (Nat.lt_of_le_of_lt (Nat.zero_le _) (Nat.lt_of_not_le hbig)) (by omega)
    have hserved : ∀ h' : Know, h'.got = some c →
        (alignUp (ar.blockStart c) align ≠ ar.blockStart c → h'.flagged = true) →
        Served ar size (alignUp (ar.blockStart c) align) c h' := fun h' hg hf =>
      ⟨hg, hs.lt, ⟨hge, by omega⟩, by omega, hf⟩
    have answer : ∀ h' : Know, h'.got = some c → h'.stamped = true →
        (alignUp (ar.blockStart c) align ≠ ar.blockStart c → h'.flagged = true) →
        Answered ar size (some (alignUp (ar.blockStart c) align)) g₁ h' := fun h' hg hst hf =>
      ⟨ha₁.captured, ha₁.freeing, hst, fun h => (by cases h), fun p hp => by
        cases hp
        exact ⟨c, hserved h' hg hf⟩⟩
    dsimp only
    split
    · apply find (Or.inr hgot) Area.inside_blockStart
      apply setHasInterior
      exact Safe.ret (answer _ hgot ha₁.stamped fun _ => rfl)
    · next heq =>
      exact Safe.ret (answer h₁ hgot ha₁.stamped fun hne => absurd hne heq)

end ClientSafe

/-! ## Zeroing -/

/-- What the event zeroes lies in a block that is served and not yet handed out. -/
def ClientAct.ZeroesOwn (ar : Area) (e : ClientAct β) (m : ClientMem) : Prop :=
  match e with
  | .writeZero a n _ => ∃ b, m.ptr b = none ∧ ∀ x, a ≤ x → x < a + n → ar.Inside x b
  | _ => True

/-- The event zeroes nothing. -/
def ClientAct.ZeroesNone : ClientAct β → Prop
  | .writeZero .. => False
  | _ => True

/-- The outline of a page and its blocks that asserts of what is zeroed that it has not been handed
out. -/
abbrev zeroingOutline (ar : Area) : Outline ClientAct ℕ ClientMem (Ghost × Know) :=
  (clientOutline ar).also fun _ e m => e.ZeroesOwn ar m

/-- `Safe` in that outline. -/
abbrev ZeroSafe (ar : Area) (t : ℕ) (p : Prog ClientAct α) (g : Ghost) (h : Know)
    (Q : α → Ghost × Know → Prop) : Prop :=
  Safe (clientMachine ar) (zeroingOutline ar) t p (g, h) Q

/-- The answer of an allocation, whose bytes are zero. -/
def Zeroed (ar : Area) (size : ℕ) (r : Option ℕ) (g : Ghost × Know) : Prop :=
  Answered ar size r g.1 g.2 ∧ ∀ p ∈ r, ∀ a, p ≤ a → a < p + size → g.2.zero a

theorem onPage_zeroesNone (p : Prog PageAct α) :
    (Client.onPage p).Every ClientAct.ZeroesNone :=
  Every.hoist (fun _ => trivial) p

theorem alloc_zeroesNone : (Client.alloc ar).Every ClientAct.ZeroesNone := by
  unfold Client.alloc
  split
  · trivial
  · exact Every.bind (onPage_zeroesNone _) fun _ => trivial

theorem withPage_zeroesNone {p : ℕ} {f : Prog ClientAct Unit} (hf : f.Every ClientAct.ZeroesNone) :
    (Client.withPage p f).Every ClientAct.ZeroesNone := by
  refine ⟨trivial, fun r => ?_⟩
  cases r with
  | false => exact ⟨trivial, fun _ => trivial⟩
  | true => exact hf

theorem allocAligned_zeroesNone {size align : ℕ} :
    (Client.allocAligned ar size align).Every ClientAct.ZeroesNone := by
  unfold Client.allocAligned
  split
  · exact alloc_zeroesNone
  split
  · trivial
  apply Every.bind alloc_zeroesNone
  intro r
  cases r with
  | none => trivial
  | some p =>
    dsimp only
    split
    · exact Every.bind (withPage_zeroesNone ⟨trivial, fun _ => trivial⟩) fun _ => trivial
    · trivial

namespace ZeroSafe

variable {Q : α → Ghost × Know → Prop}

/-- A program that zeroes nothing. -/
theorem of_none {f : Prog ClientAct α} (hs : ClientSafe ar t f g h Q)
    (hf : f.Every ClientAct.ZeroesNone) : ZeroSafe ar t f g h Q := by
  apply Safe.also _ hs hf
  intro β e s he
  cases e with
  | writeZero a n k => exact he.elim
  | _ => trivial

theorem find {a : ℕ} {k : Bool → Prog ClientAct α} (hb : g.freeing = some b ∨ h.got = some b)
    (ha : ar.Inside a b) (hk : ZeroSafe ar t (k true) g h Q) :
    ZeroSafe ar t (.act (ClientAct.find a) k) g h Q := by
  apply Safe.also_act (K := fun r g' => r = true ∧ g' = (g, h))
    (ClientSafe.find hb ha (Safe.ret ⟨rfl, rfl⟩)) (fun _ _ _ _ => trivial)
  rintro _ _ ⟨rfl, rfl⟩
  exact hk

theorem freeIsZero {k : Bool → Prog ClientAct α} (hb : h.got = some b)
    (hbig : miSmallSizeMax < ar.blockSize)
    (htrue : ZeroSafe ar t (k true) g { h with zero := ar.BehindLink b } Q)
    (hfalse : ZeroSafe ar t (k false) g h Q) :
    ZeroSafe ar t (.act (.freeIsZero id) k) g h Q := by
  apply Safe.also_act
    (K := fun r g' => g' = (g, if r then { h with zero := ar.BehindLink b } else h))
    (ClientSafe.freeIsZero hb hbig (Safe.ret rfl) (Safe.ret rfl)) (fun _ _ _ _ => trivial)
  rintro (_ | _) _ rfl
  · exact hfalse
  · exact htrue

/-- A thread zeroes bytes of the block that it has popped. -/
theorem writeZero {a n : ℕ} {k : Unit → Prog ClientAct α} (hb : h.got = some b)
    (hle : ar.blockStart b ≤ a) (hlt : a + n ≤ ar.blockStart b + ar.blockSize)
    (hk : ZeroSafe ar t (k ()) g { h with zero := fun x => h.zero x ∨ a ≤ x ∧ x < a + n } Q) :
    ZeroSafe ar t (.act (.writeZero a n id) k) g h Q := by
  apply Safe.also_act (K := fun _ g' => g' =
    (g, { h with zero := fun x => h.zero x ∨ a ≤ x ∧ x < a + n }))
    (ClientSafe.writeZero hb hle hlt (Safe.ret rfl))
  · intro m γ hinv hg
    have hview := hinv.2.view t
    rw [hg] at hview
    exact ⟨b, (hview.got b hb).2.1, fun x hx hx' => ⟨by omega, by omega⟩⟩
  · rintro _ _ rfl
    exact hk

/-- `write_bytes` over the answer of an allocation. -/
theorem zeroAnswer {size p : ℕ} (ha : Answered ar size (some p) g h) :
    ZeroSafe ar t (.act (.writeZero p size id) fun _ => .ret (some p)) g h (Zeroed ar size) := by
  obtain ⟨b, hs⟩ := ha.some p rfl
  apply writeZero hs.got hs.inside.1 hs.size_le
  refine Safe.ret ⟨⟨ha.captured, ha.freeing, ha.stamped, fun h => (by cases h), ?_⟩, ?_⟩
  · intro q hq
    cases hq
    exact ⟨b, hs.got, hs.lt, hs.inside, hs.size_le, hs.flagged⟩
  · intro q hq a hle hlt
    cases hq
    exact Or.inr ⟨hle, hlt⟩

/-- `zero_block` of a block of more than `MI_SMALL_SIZE_MAX` bytes. -/
theorem zeroBlock {k : Unit → Prog ClientAct α}
    (hgot : h.got = some b) (hbig : miSmallSizeMax < ar.blockSize)
    (hk : ∀ zero : ℕ → Prop, (∀ a, ar.Inside a b → zero a) →
      ZeroSafe ar t (k ()) g { h with zero := zero } Q) :
    ZeroSafe ar t ((Client.zeroBlock ar (ar.blockStart b)).bind k) g h Q := by
  have hword := ar.word_le
  simp only [Client.zeroBlock, bind_eq, pure_eq, perform_bind, act_bind]
  apply freeIsZero hgot hbig
  · cases hh : ar.huge with
    | true =>
      apply hk
      intro a ha
      have hlink : ar.linkBytes = 0 := by simp [Area.linkBytes, hh]
      have hle : ar.blockStart b + ar.linkBytes ≤ a := by
        rw [hlink, Nat.add_zero]
        exact ha.1
      exact ⟨hle, ha.2⟩
    | false =>
      have hlink : ar.linkBytes = miIntptrSize := by simp [Area.linkBytes, hh]
      show ZeroSafe ar t (.act (.writeZero (ar.blockStart b) miIntptrSize id) k) _ _ _
      apply writeZero (h := { h with zero := ar.BehindLink b }) hgot (Nat.le_refl _)
        (Nat.add_le_add_left hword _)
      apply hk
      intro a ha
      have := ha.1
      have := ha.2
      by_cases hlt : a < ar.blockStart b + miIntptrSize
      · exact Or.inr ⟨ha.1, hlt⟩
      · exact Or.inl ⟨by omega, ha.2⟩
  · show ZeroSafe ar t (.act (.writeZero (ar.blockStart b) ar.blockSize id) k) _ _ _
    apply writeZero hgot (Nat.le_refl _) (Nat.le_refl _)
    apply hk
    exact fun a ha => Or.inr ha

theorem allocZeroed {size : ℕ} (ha : Asking ar g h) (hsize : size ≤ ar.blockSize) :
    ZeroSafe ar t (Client.allocZeroed ar size) g h (Zeroed ar size) := by
  simp only [Client.allocZeroed, bind_eq, pure_eq]
  apply Safe.bind
  apply (of_none (ClientSafe.alloc ha hsize) alloc_zeroesNone).mono
  rintro r ⟨g₁, h₁⟩ ⟨ha₁, hstart⟩
  cases r with
  | none => exact Safe.ret ⟨ha₁, fun p hp => (by cases hp)⟩
  | some p =>
    dsimp only
    split
    · next hlarge =>
      obtain ⟨b, hs⟩ := ha₁.some p rfl
      obtain ⟨c, rfl, hgot⟩ := hstart p rfl
      obtain rfl : c = b := Option.some.inj (hgot.symm.trans hs.got)
      have hbig : miSmallSizeMax < ar.blockSize := by
        unfold zeroViaPageMin at hlarge
        unfold miSmallSizeMax miSmallWsizeMax miIntptrSize
        omega
      apply find (Or.inr hgot) Area.inside_blockStart
      apply zeroBlock hgot hbig
      intro zero hzero
      refine Safe.ret ⟨⟨ha₁.captured, ha₁.freeing, ha₁.stamped, fun h => (by cases h), ?_⟩, ?_⟩
      · intro q hq
        cases hq
        exact ⟨c, hs.got, hs.lt, hs.inside, hs.size_le, hs.flagged⟩
      · intro q hq a hle hlt
        cases hq
        exact hzero a ⟨hle, Nat.lt_of_lt_of_le hlt hs.size_le⟩
    · exact zeroAnswer ha₁

theorem allocZeroedAligned {size align : ℕ} (ha : Asking ar g h) (hpow : align.isPowerOfTwo)
    (hlt : Client.requestOf size align < usizeRange)
    (hle : Client.requestOf size align ≤ ar.blockSize) :
    ZeroSafe ar t (Client.allocZeroedAligned ar size align) g h (Zeroed ar size) := by
  unfold Client.allocZeroedAligned
  split
  · next hsmall =>
    rw [Client.requestOf, if_pos hsmall] at hle
    exact allocZeroed ha hle
  · simp only [bind_eq, pure_eq]
    apply Safe.bind
    apply (of_none (ClientSafe.allocAligned ha hpow hlt hle) allocAligned_zeroesNone).mono
    rintro r ⟨g₁, h₁⟩ ha₁
    cases r with
    | none => exact Safe.ret ⟨ha₁, fun p hp => (by cases hp)⟩
    | some p => exact zeroAnswer ha₁

end ZeroSafe

namespace ClientSafe

theorem allocZeroed {size : ℕ} (ha : Asking ar g h) (hsize : size ≤ ar.blockSize) :
    ClientSafe ar t (Client.allocZeroed ar size) g h (Zeroed ar size) :=
  (ZeroSafe.allocZeroed ha hsize).of_also

theorem allocZeroedAligned {size align : ℕ} (ha : Asking ar g h) (hpow : align.isPowerOfTwo)
    (hlt : Client.requestOf size align < usizeRange)
    (hle : Client.requestOf size align ≤ ar.blockSize) :
    ClientSafe ar t (Client.allocZeroedAligned ar size align) g h (Zeroed ar size) :=
  (ZeroSafe.allocZeroedAligned ha hpow hlt hle).of_also

/-! ## Giving a page up -/

/-- `retire_page` of a page that its thread knows to be empty. -/
theorem retirePage (hi : ClientIdle g h) (hem : h.emptied = true) :
    ClientSafe ar t Client.retirePage g h fun _ g' => ClientIdle g'.1 g'.2 := by
  simp only [Client.retirePage, bind_eq, pure_eq, perform_bind]
  apply keeps
  intro r
  cases r with
  | true => exact Safe.ret hi
  | false =>
    apply release hem
    exact Safe.ret ⟨hi.freeing, hi.captured, hi.got, fun _ => Or.inr rfl⟩

/-- What an owner does after a collect: retire the page if it is empty. -/
theorem retireIfEmpty (hi : ClientIdle g h) (hown : g.own = true) :
    ClientSafe ar t ((Client.onPage (perform .isAllFree)).bind fun r =>
      if r then Client.retirePage else .ret ()) g h fun _ g' => ClientIdle g'.1 g'.2 := by
  apply isAllFree hown hi.captured
  intro r
  have hi' : ∀ r, ClientIdle { g with tested := !r } { h with emptied := r } := fun r =>
    ⟨hi.freeing, hi.captured, hi.got, hi.own⟩
  cases r with
  | true => exact retirePage (hi' true) rfl
  | false => exact Safe.ret (hi' false)

theorem collectPage (hi : ClientIdle g h) (hown : g.own = true) (hem : h.emptied = false) :
    ClientSafe ar t Client.collect g h fun _ g' => ClientIdle g'.1 g'.2 := by
  simp only [Client.collect, bind_eq, pure_eq]
  apply Safe.bind
  apply (collect hown hi.captured hem).mono
  rintro - _ ⟨g₁, rfl, hg₁⟩
  apply retireIfEmpty
  · exact ⟨(congrArg Hold.freeing hg₁).trans hi.freeing,
      (congrArg Hold.captured hg₁).trans hi.captured, hi.got,
      fun ho => hi.own ((congrArg Hold.own hg₁).symm.trans ho)⟩
  · exact (congrArg Hold.own hg₁).trans hown

theorem setUnowned (hown : g.own = true) (hcap : g.captured = none) (hs : h.stamped = false)
    (hg : h.gone = false) (hem : h.emptied = false) :
    ClientSafe ar t (Client.onPage Page.setUnowned) g h fun _ g' =>
      ∃ g₁, g' = (g₁, h) ∧ g₁.toHold = g.toHold.giveUp :=
  onPage (setUnowned_allows hs hg hem) (Page.setUnowned_safe hown hcap)

theorem abandonOwnedPage (hi : ClientIdle g h) (hown : g.own = true) (hg : h.gone = false)
    (hem : h.emptied = false) :
    ClientSafe ar t (Client.onPage Page.abandonOwnedPage) g h fun _ g' =>
      ClientIdle g'.1 g'.2 := by
  simp only [Page.abandonOwnedPage, bind_eq, perform_bind, Client.onPage_bind]
  apply Safe.bind
  apply (collect hown hi.captured hem).mono
  rintro - _ ⟨g₁, rfl, hg₁⟩
  have hown₁ : g₁.own = true := (congrArg Hold.own hg₁).trans hown
  have hcap₁ : g₁.captured = none := (congrArg Hold.captured hg₁).trans hi.captured
  have hfreeing₁ : g₁.freeing = none := (congrArg Hold.freeing hg₁).trans hi.freeing
  apply isAllFree hown₁ hcap₁
  intro r
  cases r with
  | true =>
    apply release rfl
    exact Safe.ret ⟨hfreeing₁, hcap₁, hi.got, fun _ => Or.inr rfl⟩
  | false =>
    -- stamp the page with the id of an abandoned page and give it up
    have giveUp : ∀ (g₂ : Ghost) (id : ℕ), g₂.toHold = { g₁.toHold with tested := true } →
        (id = miThreadidAbandoned ∨ id = miThreadidAbandonedMapped) →
        ClientSafe ar t ((Client.onPage (Page.setOwner id)).bind fun _ =>
          Client.onPage Page.setUnowned) g₂ { h with emptied := false } fun _ g' =>
            ClientIdle g'.1 g'.2 := by
      intro g₂ id hg₂ hid
      have hown₂ : g₂.own = true := (congrArg Hold.own hg₂).trans hown₁
      have hne : id ≠ currentTid t := by
        rcases hid with rfl | rfl
        · simp [miThreadidAbandoned, currentTid]
        · simp only [miThreadidAbandonedMapped, miPageFlagMask, currentTid]
          omega
      apply Safe.bind
      apply (setOwner hown₂ (Or.inr hid)).mono
      rintro - _ rfl
      apply (setUnowned (g := g₂)
        (h := { h with emptied := false, stamped := decide (id = currentTid t) }) hown₂
        ((congrArg Hold.captured hg₂).trans hcap₁) (decide_eq_false hne) hg rfl).mono
      rintro - _ ⟨g₃, rfl, hg₃⟩
      refine ⟨?_, ?_, hi.got, fun ho => ?_⟩
      · exact (congrArg Hold.freeing hg₃).trans ((congrArg Hold.freeing hg₂).trans hfreeing₁)
      · exact (congrArg Hold.captured hg₃).trans ((congrArg Hold.captured hg₂).trans hcap₁)
      · cases (congrArg Hold.own hg₃).symm.trans ho
    show ClientSafe ar t (Client.onPage (Page.isFull.bind _)) _ _ _
    rw [Client.onPage_bind]
    apply Safe.bind
    apply (isFull (g := { g₁ with tested := true }) hown₁ hcap₁ rfl).mono
    rintro full _ ⟨g₂, rfl, hg₂⟩
    cases full with
    | true =>
      show ClientSafe ar t (Client.onPage ((Page.setOwner miThreadidAbandoned).bind _)) _ _ _
      rw [Client.onPage_bind]
      exact giveUp g₂ _ hg₂ (Or.inl rfl)
    | false =>
      apply quiet (e := .register) trivial (K := fun _ g' => g' = g₂)
        (PageSafe.register (Safe.ret rfl))
      rintro - _ rfl
      show ClientSafe ar t (Client.onPage ((Page.setOwner miThreadidAbandonedMapped).bind _)) _ _ _
      rw [Client.onPage_bind]
      exact giveUp _ _ hg₂ (Or.inr rfl)

end ClientSafe

/-! ## Freeing from another thread -/

/-- What a thread that holds the page and does not own it knows. -/
structure Claimed (g : Ghost) (h : Know) : Prop where
  own : g.own = true
  captured : g.captured = none
  freeing : g.freeing = none
  stamped : h.stamped = false
  gone : h.gone = false
  emptied : h.emptied = false
  got : h.got = none

theorem Claimed.of_hold {g g' : Ghost} (hc : Claimed g h) (tested : Bool)
    (hg : g'.toHold = { g.toHold with tested := tested }) : Claimed g' h :=
  ⟨(congrArg Hold.own hg).trans hc.own, (congrArg Hold.captured hg).trans hc.captured,
    (congrArg Hold.freeing hg).trans hc.freeing, hc.stamped, hc.gone, hc.emptied, hc.got⟩

namespace ClientSafe

theorem collectRound {small first : Bool} (hc : Claimed g h)
    (hsmall : small = true → ar.blockSize ≤ miSmallSizeMax)
    (hb : first = true → g.pushed = some b) :
    ClientSafe ar t (Client.onPage (Page.collectRound (first && small) b)) g h fun _ g' =>
      ∃ g₁, g' = (g₁, h) ∧ Claimed g₁ h := by
  have hcollect : ∀ {g : Ghost}, Claimed g h →
      ClientSafe ar t (Client.onPage Page.collect) g h fun _ g' =>
        ∃ g₁, g' = (g₁, h) ∧ Claimed g₁ h := by
    intro g hc
    apply (collect hc.own hc.captured hc.emptied).mono
    rintro - _ ⟨g₁, rfl, hg₁⟩
    exact ⟨g₁, rfl, hc.of_hold g.tested hg₁⟩
  unfold Page.collectRound
  split
  · next hpart =>
    obtain ⟨hfirst, hsm⟩ := Bool.and_eq_true_iff.mp hpart
    simp only [Page.collectPartly, bind_eq, pure_eq, perform_bind, Client.onPage_act]
    apply quiet (e := .collectBehind b) ⟨hsmall hsm, hc.emptied⟩
      (K := fun _ g' => g' = { g with free := none, tested := false })
      (PageSafe.collectBehind hc.own (hb hfirst) (Safe.ret rfl))
    rintro - _ rfl
    have hc₁ : Claimed { g with free := none, tested := false } h := hc.of_hold _ rfl
    apply quiet (e := .usedIsOne) trivial
      (K := fun _ g' => g' = { g with free := none, tested := false })
      (PageSafe.usedIsOne fun _ => Safe.ret rfl)
    rintro r _ rfl
    cases r with
    | true => exact hcollect hc₁
    | false => exact Safe.ret ⟨_, rfl, hc₁⟩
  · exact hcollect hc

theorem reabandonMapped (hc : Claimed g h) :
    ClientSafe ar t (Client.onPage Page.reabandonMapped) g h fun _ g' =>
      ∃ g₁, g' = (g₁, h) ∧ Claimed g₁ h := by
  simp only [Page.reabandonMapped, Page.isAbandonedMapped, bind_eq, pure_eq, perform_bind,
    Client.onPage_bind]
  apply Safe.bind
  apply (isFull hc.own hc.captured hc.emptied).mono
  rintro full _ ⟨g₁, rfl, hg₁⟩
  have hc₁ : Claimed g₁ h := hc.of_hold g.tested hg₁
  cases full with
  | true => exact Safe.ret ⟨_, rfl, hc₁⟩
  | false =>
    apply loadId
    intro raw _ _ _
    show ClientSafe ar t (Client.onPage (if _ then _ else _)) _ _ _
    split
    · apply quiet (e := .register) trivial (K := fun _ g' => g' = g₁)
        (PageSafe.register (Safe.ret rfl))
      rintro - _ rfl
      apply (setOwner hc₁.own (Or.inr (Or.inr rfl))).mono
      rintro - _ rfl
      have hne : miThreadidAbandonedMapped ≠ currentTid t := by
        simp only [miThreadidAbandonedMapped, miPageFlagMask, currentTid]
        omega
      rw [decide_eq_false hne, Know.stamped_eq hc₁.stamped]
      exact ⟨_, rfl, hc₁⟩
    · exact Safe.ret ⟨_, rfl, hc₁⟩

theorem freeTryCollectMt {small : Bool} (hc : Claimed g h)
    (hsmall : small = true → ar.blockSize ≤ miSmallSizeMax) (hb : g.pushed = some b) :
    ClientSafe ar t (Client.onPage (Page.freeTryCollectMt small b)) g h fun _ g' =>
      ClientIdle g'.1 g'.2 := by
  apply Safe.loop (fun first g' => ∃ g₁, g' = (g₁, h) ∧ Claimed g₁ h ∧
    (first = true → g₁.pushed = some b)) _ ⟨g, rfl, hc, fun _ => hb⟩
  rintro first _ ⟨g₀, rfl, hc₀, hb₀⟩
  show Safe _ _ t (Client.onPage ((Page.collectRound (first && small) b).bind _)) _ _
  rw [Client.onPage_bind]
  apply Safe.bind
  apply (collectRound hc₀ hsmall hb₀).mono
  rintro - _ ⟨g₁, rfl, hc₁⟩
  apply isAllFree hc₁.own hc₁.captured
  intro r
  cases r with
  | true =>
    show Safe _ _ t (Client.onPage (Page.unabandonIfMapped.bind _)) _ _
    rw [Client.onPage_bind]
    apply Safe.bind
    apply (onPage (h := { h with emptied := true }) (g := { g₁ with tested := false })
      unabandonIfMapped_allows Page.unabandonIfMapped_safe).mono
    rintro - _ ⟨_, rfl, rfl⟩
    apply release rfl
    exact Safe.ret (Safe.ret ⟨hc₁.freeing, hc₁.captured, hc₁.got, fun _ => Or.inr rfl⟩)
  | false =>
    rw [Know.emptied_eq hc₁.emptied]
    have hc₁' : Claimed { g₁ with tested := true } h := hc₁.of_hold _ rfl
    show Safe _ _ t (Client.onPage (Page.reabandonMapped.bind _)) _ _
    rw [Client.onPage_bind]
    apply Safe.bind
    apply (reabandonMapped hc₁').mono
    rintro - _ ⟨g₂, rfl, hc₂⟩
    apply quiet (e := .cas false ⟨none, true⟩ ⟨none, false⟩)
      (fun _ _ => ⟨hc₂.stamped, hc₂.gone, hc₂.emptied⟩)
      (Page.tryUnown_safe hc₂.own hc₂.captured False.elim)
    intro r g₃ hg₃
    cases r with
    | true =>
      refine Safe.ret (Safe.ret ⟨?_, ?_, hc₂.got, fun ho => ?_⟩)
      · exact (congrArg Hold.freeing hg₃).trans hc₂.freeing
      · exact (congrArg Hold.captured hg₃).trans hc₂.captured
      · cases (congrArg Hold.own hg₃).symm.trans ho
    | false => exact Safe.ret ⟨g₃, rfl, hc₂.of_hold _ hg₃, fun hf => by cases hf⟩

end ClientSafe

/-- What a thread knows that is about to free the block `b`. -/
structure Freeing (b : Blk) (g : Ghost) (h : Know) : Prop where
  freeing : g.freeing = some b
  captured : g.captured = none
  own : g.own = true → h.stamped = true
  gone : h.gone = false
  emptied : h.emptied = false
  got : h.got = none

namespace ClientSafe

theorem freeMt {small : Bool} (hf : Freeing b g h) (hs : h.stamped = false)
    (hsmall : small = true → ar.blockSize ≤ miSmallSizeMax) :
    ClientSafe ar t (Client.onPage (Page.freeMt small b)) g h fun _ g' =>
      ClientIdle g'.1 g'.2 := by
  simp only [Page.freeMt, bind_eq, pure_eq, Client.onPage_bind]
  apply Safe.bind
  apply (onPage threadFreePush_allows (Page.threadFreePush_safe hf.freeing)).mono
  rintro claimed _ ⟨_, rfl, rfl⟩
  cases claimed with
  | true => exact freeTryCollectMt ⟨rfl, rfl, rfl, hs, hf.gone, hf.emptied, hf.got⟩ hsmall rfl
  | false => exact Safe.ret ⟨rfl, hf.captured, hf.got, fun ho => Or.inl (hf.own ho)⟩

/-- The owner's arm of `free`, at the start of the block. -/
theorem freeOwned (hf : Freeing b g h) (hown : g.own = true) (hb : b < ar.reserved) :
    ClientSafe ar t (Client.freeOwned ar (ar.blockStart b)) g h fun _ g' =>
      ClientIdle g'.1 g'.2 := by
  rw [Client.freeOwned, Client.withBlock, Area.blockAt_blockStart hb]
  apply quiet (e := .freeLocal b) ⟨hf.emptied, hf.own hown⟩
    (K := fun _ g' => g' = { g with freeing := none, link := none, free := none, tested := false })
    (PageSafe.freeLocal hown hf.freeing (Safe.ret rfl))
  rintro - _ rfl
  exact retireIfEmpty ⟨rfl, hf.captured, hf.got, fun ho => Or.inl (hf.own ho)⟩ hown

/-! ## The dispatch of `free` -/

/-- The word on which `free` dispatches has the flag of the page. -/
theorem xor_testBit {tid raw : ℕ} (ht : tid % 4 = 0) :
    (tid ^^^ raw).testBit 1 = raw.testBit 1 := by
  have h : tid.testBit 1 = false := by
    have := Nat.testBit_mod_two_pow tid 2 1
    rw [show tid % 2 ^ 2 = 0 from ht] at this
    simpa using this.symm
  rw [Nat.testBit_xor, h, Bool.false_xor]

theorem testBit_of_mod {x : ℕ} (h : x % 4 = 0) : x.testBit 1 = false := by
  have := Nat.testBit_mod_two_pow x 2 1
  rw [show x % 2 ^ 2 = 0 from h] at this
  simpa using this.symm

/-- **The dispatch of `free`.** A thread that has taken a pointer into the block `b`, which is the
start of the block unless the flag of interior pointers is set, frees that block. -/
theorem freePtr {p : ℕ} (hf : Freeing b g h) (hin : ar.Inside p b) (hb : b < ar.reserved)
    (hflag : p ≠ ar.blockStart b → h.flagged = true) :
    ClientSafe ar t (Client.free ar (currentTid t) p) g h fun _ g' => ClientIdle g'.1 g'.2 := by
  have htid := currentTid_mod t
  simp only [Client.free, bind_eq, perform_bind]
  apply find (Or.inl hf.freeing) hin
  show ClientSafe ar t (.act (.page .loadId) fun raw => if currentTid t ^^^ raw = 0 then _ else _)
    g h _
  apply loadId
  intro raw hown hstamped hbit
  -- without the flag the pointer is the start of the block
  have hstart : raw.testBit 1 = false → p = ar.blockStart b := fun hr => by
    by_contra hne
    rw [hbit (hflag hne)] at hr
    cases hr
  have hrecover := Area.recoverBlockStart_eq hin
  split
  · next hx =>
    have hraw := xor_eq_zero.mp hx
    obtain ⟨ho, -⟩ := hown (by rw [← hraw]; omega)
    rw [hstart (testBit_of_mod (hraw ▸ htid))]
    exact freeOwned hf ho hb
  · rw [Client.freeCold, show miPageFlagMask + 1 = 4 from rfl]
    split
    · next hx =>
      have hdiv := xor_div.mp (show (currentTid t ^^^ raw) / 4 = 0 by omega)
      obtain ⟨ho, -⟩ := hown (by omega)
      rw [hrecover]
      exact freeOwned hf ho hb
    · next hx =>
      have hs : h.stamped = false := Bool.eq_false_iff.mpr fun hs => by
        have hdiv := xor_div.mpr (show currentTid t / 4 = raw / 4 by
          have := hstamped hs
          omega)
        omega
      have hblock : (if (currentTid t ^^^ raw) % 4 = 0 then p
          else ar.recoverBlockStart p) = ar.blockStart b := by
        split
        · next hmod => exact hstart ((xor_testBit htid).symm.trans (testBit_of_mod hmod))
        · exact hrecover
      rw [hblock, Client.withBlock, Area.blockAt_blockStart hb]
      exact freeMt hf hs of_decide_eq_true

/-! ## Taking a page over -/

theorem reclaim (hi : ClientIdle g h) (hem : h.emptied = false) :
    ClientSafe ar t (Client.onPage (Page.reclaim (currentTid t))) g h fun r g' =>
      ClientIdle g'.1 g'.2 ∧ (r = true → g'.1.own = true) := by
  simp only [Page.reclaim, bind_eq, pure_eq, perform_bind, Client.onPage_bind]
  apply Safe.bind
  apply (onPage claimOwnership_allows Page.claimOwnership_safe).mono
  rintro r _ ⟨g₁, rfl, hg₁⟩
  cases r with
  | false =>
    refine Safe.ret ⟨⟨?_, ?_, hi.got, fun ho => hi.own ?_⟩, fun h => by cases h⟩
    · exact (congrArg Hold.freeing hg₁).trans hi.freeing
    · exact (congrArg Hold.captured hg₁).trans hi.captured
    · exact (congrArg Hold.own hg₁).symm.trans ho
  | true =>
    have hown₁ : g₁.own = true := congrArg Hold.own hg₁
    apply quiet (e := .unregister) trivial (K := fun _ g' => g' = g₁)
      (PageSafe.unregister (Safe.ret rfl))
    rintro - _ rfl
    show ClientSafe ar t (Client.onPage ((Page.setOwner (currentTid t)).bind _)) _ _ _
    rw [Client.onPage_bind]
    apply Safe.bind
    apply (setOwner hown₁ (Or.inl rfl)).mono
    rintro - _ rfl
    apply clearZero
    show ClientSafe ar t (Client.onPage (Page.collect.bind _)) _ _ _
    rw [Client.onPage_bind]
    apply Safe.bind
    apply (collect (h := { h with
      stamped := decide (currentTid t = currentTid t)
      cleared := true }) hown₁ (congrArg Hold.captured hg₁) hem).mono
    rintro - _ ⟨g₂, rfl, hg₂⟩
    refine Safe.ret ⟨⟨?_, ?_, hi.got, fun _ => Or.inl (decide_eq_true rfl)⟩, fun _ => ?_⟩
    · exact (congrArg Hold.freeing hg₂).trans ((congrArg Hold.freeing hg₁).trans hi.freeing)
    · exact (congrArg Hold.captured hg₂).trans (congrArg Hold.captured hg₁)
    · exact (congrArg Hold.own hg₂).trans hown₁

end ClientSafe

end MimallocRs
