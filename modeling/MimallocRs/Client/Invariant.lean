import MimallocRs.Client.Shared
import MimallocRs.Page.Rules
import MimallocRs.Foundations.Interleave.Extend

/-!
# The invariant of a page and its blocks

The outline of a page is extended by what concerns the owner id, the bytes and the pointers. `Know`
is the second part of a thread's ghost: whether the page carries its id, which block it has popped
and which of its bytes it knows to be zero, and so on. `Knows` ties it to the state. Its heart is
`stamp`, that a page with the id of a thread is held by that thread, `ptr`, that a pointer into the
interior of a block has the flag of the page set, and `clean`, that while `free_is_zero` stands the
blocks on `free` and those not yet threaded are zero behind their link. The last is claimed only of
blocks larger than `MI_SMALL_SIZE_MAX`: below, the partial collect recycles blocks and leaves the
flag as it is.

`Effect` is what every event but a few does to all that, and `Knows.of_effect` what it leaves to
show.
-/

namespace MimallocRs

open Interleave

/-- What a thread knows of the owner id, the bytes and the pointers. -/
structure Know where
  /-- The page carries the thread's id. -/
  stamped : Bool
  /-- The flag of interior pointers is set. -/
  flagged : Bool
  /-- The block it has popped and not yet returned. -/
  got : Option Blk
  /-- Addresses in that block whose bytes are zero. -/
  zero : ℕ → Prop
  /-- `free_is_zero` is clear. -/
  cleared : Bool
  /-- It holds the page and has found it empty. -/
  emptied : Bool
  /-- It has released the page. -/
  gone : Bool

/-- The block `b` is zero from offset `k` on. -/
def Area.ZeroFrom (ar : Area) (bytes : ℕ → BitVec 8) (k : ℕ) (b : Blk) : Prop :=
  ∀ a, ar.blockStart b + k ≤ a → a < ar.blockStart b + ar.blockSize → bytes a = 0

/-- Bytes at the start of a block that a pop does not promise to be zero: its link. The block of a
huge page is never linked before it is handed out. -/
def Area.linkBytes (ar : Area) : ℕ := if ar.huge then 0 else miIntptrSize

/-- The address lies in the block behind its link. -/
def Area.BehindLink (ar : Area) (b : Blk) (a : ℕ) : Prop :=
  ar.blockStart b + ar.linkBytes ≤ a ∧ a < ar.blockStart b + ar.blockSize

/-- The block is on `free`, or not yet threaded. -/
def Page.Fresh (p : Page) (b : Blk) : Prop :=
  (∃ fr, Chain p.next p.free fr ∧ b ∈ fr) ∨ p.capacity ≤ b ∧ b < p.reserved

variable {ar : Area}

/-- What thread `t` knows is true. -/
structure Know.View (ar : Area) (m : ClientMem) (t : ℕ) (h : Know) : Prop where
  stamped : h.stamped = true → m.shared.holder = some t ∧ m.ownerId = currentTid t
  flagged : h.flagged = true → m.HasInterior
  got : ∀ b, h.got = some b → b ∈ m.shared.live ∧ m.ptr b = none ∧
    (m.shared.page.freeIsZero = true → miSmallSizeMax < ar.blockSize →
      ar.ZeroFrom m.bytes ar.linkBytes b)
  zero : ∀ a, h.zero a → m.bytes a = 0 ∧ ∃ b, h.got = some b ∧ ar.Inside a b
  cleared : h.cleared = true → m.shared.page.freeIsZero = false
  emptied : h.emptied = true → m.shared.holder = some t ∧ m.shared.page.used = 0
  gone : h.gone = true → m.shared.holder = some t ∧ m.shared.released = true
  released : m.shared.holder = some t → m.shared.released = true → h.gone = true

/-- What the threads know is true of the page, its blocks and its pointers. -/
structure Knows (ar : Area) (m : ClientMem) (κ : ℕ → Know) : Prop where
  reserved : m.shared.page.reserved = ar.reserved
  fault : m.fault = false
  ptr : ∀ b p, m.ptr b = some p → b ∈ m.shared.live ∧ ar.Inside p b ∧
    (p ≠ ar.blockStart b → m.HasInterior)
  clean : m.shared.page.freeIsZero = true → miSmallSizeMax < ar.blockSize →
    ∀ b, m.shared.page.Fresh b → ar.ZeroFrom m.bytes miIntptrSize b
  released : m.shared.released = true →
    (∃ t, m.shared.holder = some t) ∧ ∀ b, ¬ m.shared.Outstanding b
  stamp : ∀ t, m.ownerId = currentTid t → m.shared.holder = some t ∧ (κ t).stamped = true
  got_inj : ∀ t u b, (κ t).got = some b → (κ u).got = some b → t = u
  unserved : m.unserved = true → 0 ∈ m.shared.live ∧ m.ptr 0 = none ∧
    (∀ t, (κ t).got ≠ some 0) ∧
    (m.shared.page.freeIsZero = true → ar.ZeroFrom m.bytes 0 0)
  view : ∀ t, (κ t).View ar m t

section Update

variable {κ : ℕ → Know} {t : ℕ} {h k : Know}

/-- What the thread knew before it still knows. -/
theorem Know.update_eq {β : Type} (f : Know → β) (k : Know) (hh : κ t = h) (hf : f k = f h)
    (u : ℕ) :
    f (Function.update κ t k u) = f (κ u) := by
  by_cases hu : u = t
  · subst hu
    rw [Function.update_self, hf, hh]
  · rw [Function.update_of_ne hu]

/-- The block that a thread pops is popped by no other. -/
theorem Know.got_inj_update (hinj : ∀ u v b, (κ u).got = some b → (κ v).got = some b → u = v)
    (hother : ∀ u b, u ≠ t → k.got = some b → (κ u).got ≠ some b) (u v : ℕ) (b : Blk)
    (hu : (Function.update κ t k u).got = some b) (hv : (Function.update κ t k v).got = some b) :
    u = v := by
  by_cases hut : u = t <;> by_cases hvt : v = t
  · rw [hut, hvt]
  · subst hut
    rw [Function.update_self] at hu
    rw [Function.update_of_ne hvt] at hv
    exact absurd hv (hother v b hvt hu)
  · subst hvt
    rw [Function.update_self] at hv
    rw [Function.update_of_ne hut] at hu
    exact absurd hu (hother u b hut hv)
  · rw [Function.update_of_ne hut] at hu
    rw [Function.update_of_ne hvt] at hv
    exact hinj u v b hu hv

/-- Views of all threads, from the view of the thread that moves and those of the others. -/
theorem Know.View.of_update {m : ClientMem} (ht : k.View ar m t)
    (hu : ∀ u, u ≠ t → (κ u).View ar m u) (u : ℕ) : (Function.update κ t k u).View ar m u := by
  by_cases hut : u = t
  · subst hut
    rwa [Function.update_self]
  · rw [Function.update_of_ne hut]
    exact hu u hut

end Update

/-- The event respects the owner id: a block is put on `local_free` only by the thread whose id the
page carries, and the id is exchanged for one with the same flag of interior pointers. -/
def PageAct.Respects {β : Type} (t : ℕ) (e : PageAct β) (m : ClientMem) : Prop :=
  match e with
  | .freeLocal _ => m.ownerId = currentTid t
  | .casId old new => new.testBit 1 = old.testBit 1
  | _ => True

/-- The outline of a page and its blocks. -/
def clientOutline (ar : Area) : Outline ClientAct ℕ ClientMem (Ghost × Know) where
  inv m γ := PageInv False m.shared (fun t => (γ t).1) ∧ Knows ar m fun t => (γ t).2
  asserts t e m :=
    match e with
    | .page e => pageAsserts t e m.shared ∧ e.Respects t m
    | _ => True

/-! ## What an event does -/

/-- What an event of thread `t` does to the page, its blocks and its pointers, if it does not write
the owner id, release the page or zero a block. -/
structure Effect (ar : Area) (t : ℕ) (m m' : ClientMem) : Prop where
  reserved : m'.shared.page.reserved = m.shared.page.reserved
  fault : m'.fault = m.fault
  ptr : m'.ptr = m.ptr
  unserved : m'.unserved = m.unserved
  freeIsZero : m'.shared.page.freeIsZero = true → m.shared.page.freeIsZero = true
  live : ∀ b, b ∈ m.shared.live → b ∈ m'.shared.live
  interior : m.HasInterior → m'.HasInterior
  ownerId : m'.ownerId = m.ownerId
  holder : ∀ u, u ≠ t → (m'.shared.holder = some u ↔ m.shared.holder = some u)
  used : m'.shared.page.used = m.shared.page.used ∨ m.shared.holder = some t
  released : m'.shared.released = m.shared.released
  outstanding : m.shared.released = true → ∀ b, m'.shared.Outstanding b → m.shared.Outstanding b
  kept : ∀ b, b ∈ m.shared.live → ∀ a, ar.Inside a b → m'.bytes a = m.bytes a
  behind : ∀ b k, miIntptrSize ≤ k → ar.ZeroFrom m.bytes k b → ar.ZeroFrom m'.bytes k b
  fresh : m'.shared.page.freeIsZero = true → miSmallSizeMax < ar.blockSize →
    ∀ b, m'.shared.page.Fresh b → m.shared.page.Fresh b

namespace Effect

variable {m m' : ClientMem} {t u : ℕ} {κ : ℕ → Know} {h : Know} {b : Blk}

theorem zeroFrom (he : Effect ar t m m') (hb : b ∈ m.shared.live) {k : ℕ}
    (hz : ar.ZeroFrom m.bytes k b) : ar.ZeroFrom m'.bytes k b := by
  intro a ha ha'
  rw [he.kept b hb a ⟨by omega, ha'⟩]
  exact hz a ha ha'

theorem refl (m : ClientMem) : Effect ar t m m :=
  ⟨rfl, rfl, rfl, rfl, id, fun _ h => h, id, rfl, fun _ _ => Iff.rfl, Or.inl rfl, rfl,
    fun _ _ h => h, fun _ _ _ _ => rfl, fun _ _ _ h => h, fun _ _ _ h => h⟩

/-- What another thread knows stays true. -/
theorem view_other (he : Effect ar t m m') (hu : u ≠ t) (hv : h.View ar m u) :
    h.View ar m' u where
  stamped hs := by
    rw [he.ownerId, he.holder u hu]
    exact hv.stamped hs
  flagged hf := he.interior (hv.flagged hf)
  got b hb := by
    obtain ⟨hlive, hptr, hz⟩ := hv.got b hb
    exact ⟨he.live b hlive, by rw [he.ptr, hptr],
      fun hf hbig => he.zeroFrom hlive (hz (he.freeIsZero hf) hbig)⟩
  zero a ha := by
    obtain ⟨hz, b, hb, hin⟩ := hv.zero a ha
    rw [he.kept b (hv.got b hb).1 a hin]
    exact ⟨hz, b, hb, hin⟩
  cleared hc := Bool.eq_false_iff.mpr fun hf => by
    have := hv.cleared hc
    rw [he.freeIsZero hf] at this
    cases this
  emptied hem := by
    obtain ⟨hh, hused⟩ := hv.emptied hem
    refine ⟨(he.holder u hu).mpr hh, ?_⟩
    rcases he.used with heq | ht
    · rw [heq, hused]
    · exact absurd (Option.some.inj (hh.symm.trans ht)) hu
  gone hg := by
    rw [he.released, he.holder u hu]
    exact hv.gone hg
  released hh hr := hv.released ((he.holder u hu).mp hh) (he.released ▸ hr)

/-- What the acting thread knows stays true, if it keeps the page or knows nothing that rests on
that. -/
theorem view_self (he : Effect ar t m m') (hk : Knows ar m κ) (hv : h.View ar m t)
    (hlose : m.shared.holder = some t → m'.shared.holder = some t ∨
      h.stamped = false ∧ h.gone = false ∧ h.emptied = false)
    (hused : h.emptied = true → m'.shared.page.used = m.shared.page.used) :
    h.View ar m' t where
  stamped hs := by
    obtain ⟨hh, hid⟩ := hv.stamped hs
    refine ⟨(hlose hh).resolve_right fun hn => ?_, he.ownerId.trans hid⟩
    rw [hs] at hn
    cases hn.1
  flagged hf := he.interior (hv.flagged hf)
  got b hb := by
    obtain ⟨hlive, hptr, hz⟩ := hv.got b hb
    exact ⟨he.live b hlive, by rw [he.ptr, hptr],
      fun hf hbig => he.zeroFrom hlive (hz (he.freeIsZero hf) hbig)⟩
  zero a ha := by
    obtain ⟨hz, b, hb, hin⟩ := hv.zero a ha
    rw [he.kept b (hv.got b hb).1 a hin]
    exact ⟨hz, b, hb, hin⟩
  cleared hc := Bool.eq_false_iff.mpr fun hf => by
    have := hv.cleared hc
    rw [he.freeIsZero hf] at this
    cases this
  emptied hem := by
    obtain ⟨hh, hz⟩ := hv.emptied hem
    refine ⟨(hlose hh).resolve_right fun hn => ?_, (hused hem).trans hz⟩
    rw [hem] at hn
    cases hn.2.2
  gone hg := by
    obtain ⟨hh, hr⟩ := hv.gone hg
    refine ⟨(hlose hh).resolve_right fun hn => ?_, he.released.trans hr⟩
    rw [hg] at hn
    cases hn.2.1
  released hh hr := by
    have hr := he.released ▸ hr
    obtain ⟨⟨u, hu⟩, -⟩ := hk.released hr
    by_cases hut : u = t
    · exact hv.released (hut ▸ hu) hr
    · exact absurd (Option.some.inj (((he.holder u hut).mpr hu).symm.trans hh)) hut

end Effect

/-- **What an event leaves to show.** -/
theorem Knows.of_effect {m m' : ClientMem} {t : ℕ} {κ : ℕ → Know} {k : Know} (hk : Knows ar m κ)
    (he : Effect ar t m m') (hview : k.View ar m' t)
    (hstamp : (κ t).stamped = true → k.stamped = true)
    (hgone : (κ t).gone = true → m'.shared.holder = some t)
    (hgot : ∀ b, k.got = some b → (κ t).got = some b ∨ b ∉ m.shared.live) :
    Knows ar m' (Function.update κ t k) where
  reserved := he.reserved.trans hk.reserved
  fault := he.fault.trans hk.fault
  ptr b p hb := by
    obtain ⟨hlive, hin, hflag⟩ := hk.ptr b p (he.ptr ▸ hb)
    exact ⟨he.live b hlive, hin, fun hne => he.interior (hflag hne)⟩
  clean hf hbig b hb :=
    he.behind b _ (Nat.le_refl _) (hk.clean (he.freeIsZero hf) hbig b (he.fresh hf hbig b hb))
  released hr := by
    have hr := he.released ▸ hr
    obtain ⟨⟨u, hu⟩, hout⟩ := hk.released hr
    refine ⟨⟨u, ?_⟩, fun b hb => hout b (he.outstanding hr b hb)⟩
    by_cases hut : u = t
    · subst hut
      exact hgone ((hk.view u).released hu hr)
    · exact (he.holder u hut).mpr hu
  stamp u hu := by
    obtain ⟨hh, hs⟩ := hk.stamp u (he.ownerId ▸ hu)
    by_cases hut : u = t
    · subst hut
      rw [Function.update_self]
      exact ⟨(hview.stamped (hstamp hs)).1, hstamp hs⟩
    · rw [Function.update_of_ne hut]
      exact ⟨(he.holder u hut).mpr hh, hs⟩
  got_inj := by
    apply Know.got_inj_update hk.got_inj
    intro u b hu hb hu'
    rcases hgot b hb with hb | hb
    · exact hu (hk.got_inj u t b hu' hb)
    · exact hb ((hk.view u).got b hu').1
  unserved hu := by
    obtain ⟨hlive, hptr, hgot', hz⟩ := hk.unserved (he.unserved ▸ hu)
    refine ⟨he.live 0 hlive, by rw [he.ptr, hptr], fun u hu => ?_,
      fun hf => he.zeroFrom hlive (hz (he.freeIsZero hf))⟩
    by_cases hut : u = t
    · subst hut
      rw [Function.update_self] at hu
      exact (hgot 0 hu).elim (hgot' u) fun hn => hn hlive
    · rw [Function.update_of_ne hut] at hu
      exact hgot' u hu
  view := Know.View.of_update hview fun u hu => he.view_other hu (hk.view u)

end MimallocRs
