import MimallocRs.Client.Outline
import MimallocRs.Page.Runs

/-!
# Runs of a page and its blocks

The invariant of `Client/Invariant.lean` in every reachable configuration of `clientSystem`: it
holds of a fresh page, what starts and finishes an operation keeps it, and the operations keep it
by `Client/Outline.lean`.
-/

namespace MimallocRs

open Interleave

variable {ar : Area} {t : ℕ} {m m' : ClientMem} {γ : ℕ → Ghost} {κ : ℕ → Know} {h : Know} {b : Blk}

/-! ## Fresh pages -/

/-- What a thread knows of a fresh page of the thread `o`. -/
def Know.fresh (o t : ℕ) : Know where
  stamped := t = o
  flagged := false
  got := none
  zero := fun _ => False
  cleared := false
  emptied := false
  gone := false

/-- A page that its thread `o` has just taken over and stamped. -/
theorem knows_fresh {o : ℕ} {p : Page} {live : List Blk} {bytes : ℕ → BitVec 8} {unserved : Bool}
    (hid : p.xthreadId = currentTid o) (hres : p.reserved = ar.reserved)
    (hclean : p.freeIsZero = true → ∀ b, p.Fresh b → ar.ZeroFrom bytes miIntptrSize b)
    (huns : unserved = true → 0 ∈ live ∧ (p.freeIsZero = true → ar.ZeroFrom bytes 0 0)) :
    Knows ar ⟨.fresh o p live, bytes, false, fun _ => none, unserved⟩ (Know.fresh o) := by
  have hmod := currentTid_mod o
  have howner : ClientMem.ownerId ⟨.fresh o p live, bytes, false, fun _ => none, unserved⟩ =
      currentTid o := by
    rw [ownerId_eq]
    show p.xthreadId / 4 * 4 = _
    rw [hid]
    omega
  exact {
    reserved := hres
    fault := rfl
    ptr := fun b p hp => by cases hp
    clean := fun hz _ => hclean hz
    released := fun hr => by cases hr
    stamp := fun t ht => by
      obtain rfl := currentTid_inj (howner.symm.trans ht)
      exact ⟨rfl, decide_eq_true rfl⟩
    got_inj := fun t u b hb => by cases hb
    unserved := fun hu => ⟨(huns hu).1, rfl, fun t ht => (by cases ht), (huns hu).2⟩
    view := fun t => {
      stamped := fun hs => by
        obtain rfl : t = o := of_decide_eq_true hs
        exact ⟨rfl, howner⟩
      flagged := fun hf => by cases hf
      got := fun b hb => by cases hb
      zero := fun a ha => ha.elim
      cleared := fun hc => by cases hc
      emptied := fun he => by cases he
      gone := fun hg => by cases hg
      released := fun _ hr => by cases hr } }

/-- The invariant holds of the pages that runs start from. -/
theorem ClientMem.Init.inv (hm : m.Init ar) :
    ∃ γ, (clientOutline ar).inv m γ ∧ ∀ t, ClientIdle (γ t).1 (γ t).2 := by
  have hidle : ∀ o t, ClientIdle (Ghost.fresh o t) (Know.fresh o t) := by
    intro o t
    refine ⟨rfl, rfl, rfl, fun ho => Or.inl ?_⟩
    exact decide_eq_true (of_decide_eq_true ho).symm
  -- a block of the page is zero if the slices are
  have hzero : ∀ {bytes : ℕ → BitVec 8} {isZero : Bool} {k : ℕ} {b : Blk},
      (isZero = true → ∀ a, ar.Mapped a → bytes a = 0) → isZero = true → b < ar.reserved →
      ar.ZeroFrom bytes k b := by
    intro bytes isZero k b hz his hb a hle hlt
    exact hz his a (Area.Inside.mapped ⟨by omega, hlt⟩ hb)
  cases hm with
  | small o isZero bytes hhuge hz =>
    have hres : (Page.init ar.sliceCount ar.blockSize (currentTid o) isZero).reserved =
        ar.reserved := by simp [Page.init, Area.reserved, hhuge]
    obtain ⟨o', hi⟩ : ∃ o', PageInv False _ (Ghost.fresh o') :=
      (Shared.Init.small o ar.sliceCount ar.blockSize (currentTid o) isZero).pageInv
    obtain rfl : o' = o := by
      have := (hi.ownership.holder o').mp (decide_eq_true rfl)
      exact (Option.some.inj this).symm
    refine ⟨fun t => (Ghost.fresh o' t, Know.fresh o' t), ⟨hi, ?_⟩, hidle o'⟩
    apply knows_fresh rfl hres
    · intro his b hb
      obtain ⟨fr, hfr, hb⟩ | ⟨-, hb⟩ := hb
      · rw [Chain.none_iff.mp hfr] at hb
        cases hb
      · exact hzero hz his (hres ▸ hb)
    · intro hu
      cases hu
  | huge o isZero bytes hhuge hz =>
    have hres : ar.reserved = 1 := by simp [Area.reserved, hhuge]
    obtain ⟨o', hi⟩ : ∃ o', PageInv False _ (Ghost.fresh o') :=
      (Shared.Init.huge o ar.blockSize (currentTid o) isZero).pageInv
    obtain rfl : o' = o := by
      have := (hi.ownership.holder o').mp (decide_eq_true rfl)
      exact (Option.some.inj this).symm
    refine ⟨fun t => (Ghost.fresh o' t, Know.fresh o' t), ⟨hi, ?_⟩, hidle o'⟩
    apply knows_fresh rfl hres.symm
    · intro _ b hb
      obtain ⟨fr, hfr, hb⟩ | ⟨hle, hlt⟩ := hb
      · rw [Chain.none_iff.mp hfr] at hb
        cases hb
      · exact absurd hlt (Nat.not_lt.mpr hle)
    · exact fun _ => ⟨List.mem_singleton.mpr rfl, fun his =>
        hzero (b := 0) hz his (hres ▸ Nat.one_pos)⟩

/-! ## What starts an operation -/

/-- What a thread goes on with into its next operation. -/
def Know.next (h : Know) : Know :=
  { h with flagged := false, zero := fun _ => False, cleared := false, emptied := false }

theorem Know.View.next (hv : h.View ar m t) : h.next.View ar m t :=
  ⟨hv.stamped, fun hf => (by cases hf), hv.got, fun a ha => ha.elim, fun hc => (by cases hc),
    fun he => (by cases he), hv.gone, hv.released⟩

theorem Knows.next (hk : Knows ar m κ) : Knows ar m (Function.update κ t (κ t).next) :=
  hk.of_effect (Effect.refl m) (hk.view t).next id (fun hg => ((hk.view t).gone hg).1)
    fun _ hb => Or.inl hb

/-- What a thread knows that asks for a block: the one of a huge page has been served. -/
def Know.asking (ar : Area) (h : Know) : Know :=
  { h.next with got := if ar.huge then some 0 else none }

/-- A thread asks for a block. -/
theorem Knows.ask (hk : Knows ar m κ) (huns : ar.huge = true → m.unserved = true) :
    Knows ar { m with unserved := false } (Function.update κ t ((κ t).asking ar)) := by
  have hv := (hk.view t).next
  have hserved : ∀ b, (if ar.huge then some 0 else none) = some b → ar.huge = true ∧ b = 0 := by
    intro b hb
    split at hb
    · next hh =>
      cases hb
      exact ⟨hh, rfl⟩
    · cases hb
  exact {
    reserved := hk.reserved
    fault := hk.fault
    ptr := hk.ptr
    clean := hk.clean
    released := hk.released
    stamp := fun u hu => by
      rw [Know.update_eq (·.stamped) ((κ t).asking ar) rfl rfl]
      exact hk.stamp u hu
    got_inj := by
      apply Know.got_inj_update hk.got_inj
      intro u b _ hb
      obtain ⟨hh, rfl⟩ := hserved b hb
      exact (hk.unserved (huns hh)).2.2.1 u
    unserved := fun hu => by cases hu
    view := by
      apply Know.View.of_update
      · refine ⟨hv.stamped, hv.flagged, fun b hb => ?_, fun a ha => ha.elim, hv.cleared,
          hv.emptied, hv.gone, hv.released⟩
        obtain ⟨hh, rfl⟩ := hserved b hb
        obtain ⟨hlive, hptr, -, hz⟩ := hk.unserved (huns hh)
        refine ⟨hlive, hptr, fun hf _ => ?_⟩
        rw [Area.linkBytes, if_pos hh]
        exact hz hf
      · intro u _
        have hvu := hk.view u
        exact ⟨hvu.stamped, hvu.flagged, hvu.got, hvu.zero, hvu.cleared, hvu.emptied, hvu.gone,
          hvu.released⟩ }

/-- What a thread knows that passes the pointer `p` to `free`. -/
def Know.freeing (ar : Area) (p : ℕ) (h : Know) : Know :=
  { h.next with flagged := decide (p ≠ ar.blockStart (ar.blockOf p)) }

/-- A thread passes a pointer to `free`. -/
theorem Knows.take {p : ℕ} {s' : Shared ℕ} (hi : PageInv False m.shared γ) (hk : Knows ar m κ)
    (hfree : m.shared.freeing t = none) (hp : m.ptr (ar.blockOf p) = some p)
    (hs : m.shared.take t (ar.blockOf p) = some s') :
    Knows ar { m with shared := s', ptr := Function.update m.ptr (ar.blockOf p) none }
      (Function.update κ t ((κ t).freeing ar p)) := by
  set b := ar.blockOf p with hb
  obtain ⟨fr, lo, hpart⟩ := hi.partition
  have hout := hpart.outstanding_take hfree hs
  have hv := (hk.view t).next
  obtain ⟨hlive, hin, hflag⟩ := hk.ptr b p hp
  unfold Shared.take at hs
  rw [if_pos hlive] at hs
  cases hs
  -- the other blocks stay live
  have hstay : ∀ c, c ∈ m.shared.live → m.ptr c = none → c ∈ m.shared.live.erase b := by
    intro c hc hn
    refine (List.mem_erase_of_ne fun heq => ?_).mpr hc
    rw [heq, hp] at hn
    cases hn
  have hnone : ∀ c, m.ptr c = none → Function.update m.ptr b none c = none := by
    intro c hc
    by_cases hcb : c = b
    · subst hcb
      rw [Function.update_self]
    · rwa [Function.update_of_ne hcb]
  have key := Know.update_eq (κ := κ) (t := t) (fun h => (h.got, h.stamped)) ((κ t).freeing ar p)
    rfl rfl
  simp only [Prod.mk.injEq] at key
  exact {
    reserved := hk.reserved
    fault := hk.fault
    ptr := fun c q hc => by
      have hne : c ≠ b := fun heq => by
        subst heq
        simp at hc
      have hc : m.ptr c = some q := (Function.update_of_ne hne _ _).symm.trans hc
      obtain ⟨hl, hq⟩ := hk.ptr c q hc
      exact ⟨(List.mem_erase_of_ne hne).mpr hl, hq⟩
    clean := hk.clean
    released := fun hr => ⟨(hk.released hr).1, fun c hc => (hk.released hr).2 c ((hout c).mp hc)⟩
    stamp := fun u hu => by
      rw [(key u).2]
      exact hk.stamp u hu
    got_inj := fun u v c => by
      rw [(key u).1, (key v).1]
      exact hk.got_inj u v c
    unserved := fun hu => by
      obtain ⟨hl, hn, hgot, hz⟩ := hk.unserved hu
      exact ⟨hstay 0 hl hn, hnone 0 hn, fun u => (key u).1 ▸ hgot u, hz⟩
    view := by
      have hgot : ∀ {h : Know} {u : ℕ}, h.View ar m u → ∀ c, h.got = some c →
          c ∈ m.shared.live.erase b ∧ Function.update m.ptr b none c = none ∧
          (m.shared.page.freeIsZero = true → miSmallSizeMax < ar.blockSize →
            ar.ZeroFrom m.bytes ar.linkBytes c) := fun hv c hc => by
        obtain ⟨hl, hn, hz⟩ := hv.got c hc
        exact ⟨hstay c hl hn, hnone c hn, hz⟩
      apply Know.View.of_update
      · exact ⟨hv.stamped, fun hf => hflag (of_decide_eq_true hf), fun c hc => hgot hv c hc,
          hv.zero, hv.cleared, hv.emptied, hv.gone, hv.released⟩
      · intro u _
        have hvu := hk.view u
        exact ⟨hvu.stamped, hvu.flagged, hgot hvu, hvu.zero, hvu.cleared, hvu.emptied, hvu.gone,
          hvu.released⟩ }

/-- A user writes into a block of whose pointer it is told. -/
theorem Knows.userWrite (hi : PageInv False m.shared γ) (hk : Knows ar m κ) {c : Blk}
    {content : ℕ → BitVec 8} (hm : m.userWrite ar c content = some m') : Knows ar m' κ := by
  unfold ClientMem.userWrite at hm
  split at hm
  · next hc =>
    cases hm
    obtain ⟨p, hp⟩ := Option.ne_none_iff_exists'.mp hc
    obtain ⟨hlive, -⟩ := hk.ptr c p hp
    obtain ⟨fr, lo, hpart⟩ := hi.partition
    -- nothing is written into another block
    have hkeep : ∀ b a, b ≠ c → ar.Inside a b →
        (if ar.blockStart c ≤ a ∧ a < ar.blockStart c + ar.blockSize then content a
          else m.bytes a) = m.bytes a := by
      intro b a hne ha
      exact if_neg fun ha' => hne (ha.unique ha')
    have hfrom : ∀ k b, b ≠ c → ar.ZeroFrom m.bytes k b → ar.ZeroFrom (fun a =>
        if ar.blockStart c ≤ a ∧ a < ar.blockStart c + ar.blockSize then content a
          else m.bytes a) k b := by
      intro k b hne hz a hle hlt
      exact (hkeep b a hne ⟨by omega, hlt⟩).trans (hz a hle hlt)
    have hne : ∀ b, m.ptr b = none → b ≠ c := by
      rintro b hb rfl
      exact hc hb
    have hfresh : ∀ b, m.shared.page.Fresh b → b ≠ c := by
      rintro b hb rfl
      rw [hpart.lists.fresh_iff] at hb
      rcases hb with hb | ⟨hb, -⟩
      · exact hpart.out_off b (Or.inl hlive) (by simp [hb])
      · exact absurd (hpart.out_lt b (Or.inl hlive)) (Nat.not_lt.mpr hb)
    exact {
      reserved := hk.reserved
      fault := hk.fault
      ptr := hk.ptr
      clean := fun hz hbig b hb => hfrom _ b (hfresh b hb) (hk.clean hz hbig b hb)
      released := hk.released
      stamp := hk.stamp
      got_inj := hk.got_inj
      unserved := fun hu => by
        obtain ⟨hl, hn, hgot, hz⟩ := hk.unserved hu
        exact ⟨hl, hn, hgot, fun hf => hfrom _ 0 (hne 0 hn) (hz hf)⟩
      view := fun u => by
        have hv := hk.view u
        refine ⟨hv.stamped, hv.flagged, fun b hb => ?_, fun a ha => ?_, hv.cleared, hv.emptied,
          hv.gone, hv.released⟩
        · obtain ⟨hl, hn, hz⟩ := hv.got b hb
          exact ⟨hl, hn, fun hf hbig => hfrom _ b (hne b hn) (hz hf hbig)⟩
        · obtain ⟨hz, b, hb, hin⟩ := hv.zero a ha
          exact ⟨(hkeep b a (hne b (hv.got b hb).2.1) hin).trans hz, b, hb, hin⟩ }
  · cases hm

/-! ## What ends an operation -/

/-- What a thread knows that has returned the pointer of a block. -/
def Know.done (h : Know) : Know := { h.next with got := none }

/-- A thread returns the pointer of the block that it has popped. -/
theorem Knows.handOut {size p : ℕ} (hk : Knows ar m κ) (hs : Served ar size p b (κ t)) :
    Knows ar (m.handOut ar p) (Function.update κ t (κ t).done) := by
  have hv := hk.view t
  obtain ⟨hlive, hnone, -⟩ := hv.got b hs.got
  have hblock : ar.blockOf p = b := hs.inside.blockOf_eq
  unfold ClientMem.handOut
  rw [hblock]
  have hother : ∀ u c, u ≠ t → (κ u).got = some c → c ≠ b := by
    rintro u c hu hc rfl
    exact hu (hk.got_inj u t c hc hs.got)
  exact {
    reserved := hk.reserved
    fault := hk.fault
    ptr := fun c q hc => by
      have hc : Function.update m.ptr b (some p) c = some q := hc
      by_cases hcb : c = b
      · subst hcb
        rw [Function.update_self] at hc
        cases hc
        exact ⟨hlive, hs.inside, fun hne => hv.flagged (hs.flagged hne)⟩
      · rw [Function.update_of_ne hcb] at hc
        exact hk.ptr c q hc
    clean := hk.clean
    released := hk.released
    stamp := fun u hu => by
      rw [Know.update_eq (·.stamped) (κ t).done rfl rfl]
      exact hk.stamp u hu
    got_inj := Know.got_inj_update hk.got_inj fun u c _ hc => by cases hc
    unserved := fun hu => by
      obtain ⟨hl, hn, hgot, hz⟩ := hk.unserved hu
      refine ⟨hl, ?_, fun u hu => ?_, hz⟩
      · show Function.update m.ptr b (some p) 0 = none
        rw [Function.update_of_ne, hn]
        rintro rfl
        exact hgot t hs.got
      · by_cases hut : u = t
        · subst hut
          rw [Function.update_self] at hu
          cases hu
        · rw [Function.update_of_ne hut] at hu
          exact hgot u hu
    view := by
      apply Know.View.of_update
      · exact ⟨hv.stamped, fun hf => (by cases hf), fun c hc => (by cases hc), fun a ha => ha.elim,
          fun hc => (by cases hc), fun he => (by cases he), hv.gone, hv.released⟩
      · intro u hu
        have hvu := hk.view u
        refine ⟨hvu.stamped, hvu.flagged, fun c hc => ?_, hvu.zero, hvu.cleared, hvu.emptied,
          hvu.gone, hvu.released⟩
        obtain ⟨hl, hn, hz⟩ := hvu.got c hc
        refine ⟨hl, ?_, hz⟩
        show Function.update m.ptr b (some p) c = none
        rw [Function.update_of_ne (hother u c hu hc), hn] }

/-- A thread is told that it has made the page its own. -/
theorem Knows.report (hk : Knows ar m κ) :
    Knows ar { m with shared := m.shared.report t } κ where
  reserved := hk.reserved
  fault := hk.fault
  ptr := hk.ptr
  clean := hk.clean
  released := hk.released
  stamp := hk.stamp
  got_inj := hk.got_inj
  unserved := hk.unserved
  view u := by
    have hv := hk.view u
    exact ⟨hv.stamped, hv.flagged, hv.got, hv.zero, hv.cleared, hv.emptied, hv.gone, hv.released⟩

/-! ## Runs -/

/-- A thread whose operation has returned. -/
def clientPost (ar : Area) (_ : ℕ) : (o : ClientOp) → o.Res → Ghost × Know → Prop
  | .alloc size, r, g | .allocAligned size _, r, g => Answered ar size r g.1 g.2
  | .allocZeroed size, r, g | .allocZeroedAligned size _, r, g => Zeroed ar size r g
  | .reclaim, r, g => ClientIdle g.1 g.2 ∧ (r = true → g.1.own = true)
  | .free _, _, g | .write .., _, g | .isFull, _, g | .collect, _, g | .collectRetired, _, g
  | .exit, _, g => ClientIdle g.1 g.2

section Start

variable {γ : ℕ → Ghost × Know}

/-- A thread that may make an owner's call holds the page, which carries its id. -/
theorem owner_of_asOwner {s' : Shared ℕ} (hinv : (clientOutline ar).inv m γ)
    (hidle : ClientIdle (γ t).1 (γ t).2) (ho : m.shared.asOwner t = some s') :
    s' = m.shared ∧ (γ t).1.own = true ∧ (γ t).2.stamped = true ∧ (γ t).2.gone = false := by
  obtain ⟨rfl, hown⟩ := hinv.1.own_of_asOwner ho
  have hgone : (γ t).2.gone = false := Bool.eq_false_iff.mpr fun hg => by
    have hr := ((hinv.2.view t).gone hg).2
    unfold Shared.asOwner at ho
    split at ho
    · next hc =>
      rw [hr] at hc
      cases hc.2
    · cases ho
  refine ⟨rfl, hown, (hidle.own hown).resolve_right fun hg => ?_, hgone⟩
  rw [hgone] at hg
  cases hg

/-- A request is answered by a thread that may allocate. -/
theorem request_start {size : ℕ} (hinv : (clientOutline ar).inv m γ)
    (hidle : ClientIdle (γ t).1 (γ t).2) (hm : m.request ar t size = some m') :
    size < usizeRange ∧ ar.Serves (max size miIntptrSize) ∧ ∃ g h, Asking ar g h ∧
      (clientOutline ar).inv m' (Function.update γ t (g, h)) := by
  unfold ClientMem.request at hm
  split at hm
  · next hc =>
    obtain ⟨s', ho, rfl⟩ := Option.map_eq_some_iff.mp hm
    obtain ⟨rfl, hown, hstamped, hgone⟩ := owner_of_asOwner hinv hidle ho
    refine ⟨hc.1, hc.2.1, (γ t).1, (γ t).2.asking ar,
      ⟨hown, hidle.captured, hidle.freeing, hstamped, hgone, rfl, rfl, rfl⟩, ?_⟩
    apply clientOutline_inv
    · rw [Function.update_eq_self (f := fun u => (γ u).1)]
      exact hinv.1
    · exact hinv.2.ask hc.2.2
  · cases hm

/-- An operation of the owner starts. -/
theorem owner_start {s' : Shared ℕ} (hinv : (clientOutline ar).inv m γ)
    (hidle : ClientIdle (γ t).1 (γ t).2) (ho : m.shared.asOwner t = some s') :
    s' = m.shared ∧ ∃ g h, ClientIdle g h ∧ g.own = true ∧ h.gone = false ∧ h.emptied = false ∧
      (clientOutline ar).inv m (Function.update γ t (g, h)) := by
  obtain ⟨rfl, hown, -, hgone⟩ := owner_of_asOwner hinv hidle ho
  refine ⟨rfl, (γ t).1, (γ t).2.next, ⟨hidle.freeing, hidle.captured, hidle.got, hidle.own⟩,
    hown, hgone, rfl, ?_⟩
  apply clientOutline_inv
  · rw [Function.update_eq_self (f := fun u => (γ u).1)]
    exact hinv.1
  · exact hinv.2.next

/-- A pointer is passed to `free`. -/
theorem take_start {p : ℕ} (hinv : (clientOutline ar).inv m γ) (hidle : ClientIdle (γ t).1 (γ t).2)
    (hm : m.take ar t p = some m') : ∃ b g h, Freeing b g h ∧ ar.Inside p b ∧ b < ar.reserved ∧
      (p ≠ ar.blockStart b → h.flagged = true) ∧
      (clientOutline ar).inv m' (Function.update γ t (g, h)) := by
  unfold ClientMem.take at hm
  split at hm
  · next hp =>
    obtain ⟨s', hs, rfl⟩ := Option.map_eq_some_iff.mp hm
    obtain ⟨hi, hk⟩ := hinv
    have hfree : m.shared.freeing t = none := (hi.view t).freeing.trans hidle.freeing
    obtain ⟨hlive, hin, -⟩ := hk.ptr _ p hp
    obtain ⟨fr, lo, hpart⟩ := hi.partition
    have hlt : ar.blockOf p < ar.reserved := hk.reserved ▸
      Nat.lt_of_lt_of_le (hpart.out_lt _ (Or.inl hlive)) hpart.lists.capacity_le
    have hgone : (γ t).2.gone = false := Bool.eq_false_iff.mpr fun hg =>
      (hk.released ((hk.view t).gone hg).2).2 _ (Or.inl hlive)
    refine ⟨ar.blockOf p, { (γ t).1 with freeing := some (ar.blockOf p), link := none },
      (γ t).2.freeing ar p, ⟨rfl, hidle.captured, fun ho => ?_, hgone, rfl, hidle.got⟩, hin, hlt,
      fun hne => decide_eq_true hne, ?_⟩
    · refine (hidle.own ho).resolve_right fun hg => ?_
      rw [hgone] at hg
      cases hg
    · exact clientOutline_inv (hi.take hidle.freeing hs) (hk.take hi hfree hp hs)
  · cases hm

/-- A started operation is safe. -/
theorem clientSystem_start {o : ClientOp} (hinv : (clientOutline ar).inv m γ)
    (hidle : ClientIdle (γ t).1 (γ t).2) (hm : (clientSystem ar).start t o m = some m') :
    ∃ g, (clientOutline ar).inv m' (Function.update γ t g) ∧
      Safe (clientMachine ar) (clientOutline ar) t ((clientSystem ar).prog t o) g
        (clientPost ar t o) := by
  cases o with
  | alloc size =>
    obtain ⟨hlt, hserves, g, h, ha, hinv'⟩ := request_start hinv hidle hm
    refine ⟨(g, h), hinv', ?_⟩
    exact (ClientSafe.alloc ha (hserves.size_le hlt)).mono fun r g' hg => hg.1
  | allocZeroed size =>
    obtain ⟨hlt, hserves, g, h, ha, hinv'⟩ := request_start hinv hidle hm
    exact ⟨(g, h), hinv', ClientSafe.allocZeroed ha (hserves.size_le hlt)⟩
  | allocAligned size align =>
    simp only [clientSystem] at hm
    split at hm
    · next hpow =>
      obtain ⟨hlt, hserves, g, h, ha, hinv'⟩ := request_start hinv hidle hm
      exact ⟨(g, h), hinv', ClientSafe.allocAligned ha hpow hlt (hserves.size_le hlt)⟩
    · cases hm
  | allocZeroedAligned size align =>
    simp only [clientSystem] at hm
    split at hm
    · next hpow =>
      obtain ⟨hlt, hserves, g, h, ha, hinv'⟩ := request_start hinv hidle hm
      exact ⟨(g, h), hinv', ClientSafe.allocZeroedAligned ha hpow hlt (hserves.size_le hlt)⟩
    · cases hm
  | free p =>
    obtain ⟨b, g, h, hf, hin, hb, hflag, hinv'⟩ := take_start hinv hidle hm
    exact ⟨(g, h), hinv', ClientSafe.freePtr hf hin hb hflag⟩
  | write b content =>
    obtain ⟨hi, hk⟩ := hinv
    refine ⟨γ t, ?_, Safe.ret hidle⟩
    rw [Function.update_eq_self]
    have hshared : m'.shared = m.shared := by
      simp only [clientSystem, ClientMem.userWrite] at hm
      split at hm <;> cases hm
      rfl
    exact ⟨by rw [hshared]; exact hi, hk.userWrite hi hm⟩
  | isFull =>
    obtain ⟨s', ho, rfl⟩ := Option.map_eq_some_iff.mp hm
    obtain ⟨rfl, g, h, hid, hown, -, hem, hinv'⟩ := owner_start hinv hidle ho
    refine ⟨(g, h), hinv', ?_⟩
    apply (ClientSafe.isFull hown hid.captured hem).mono
    rintro r _ ⟨g₁, rfl, hg₁⟩
    exact ⟨(congrArg Hold.freeing hg₁).trans hid.freeing,
      (congrArg Hold.captured hg₁).trans hid.captured, hid.got,
      fun ho => hid.own ((congrArg Hold.own hg₁).symm.trans ho)⟩
  | collect =>
    obtain ⟨s', ho, rfl⟩ := Option.map_eq_some_iff.mp hm
    obtain ⟨rfl, g, h, hid, hown, -, hem, hinv'⟩ := owner_start hinv hidle ho
    exact ⟨(g, h), hinv', ClientSafe.collectPage hid hown hem⟩
  | collectRetired =>
    obtain ⟨s', ho, rfl⟩ := Option.map_eq_some_iff.mp hm
    obtain ⟨rfl, g, h, hid, hown, -, -, hinv'⟩ := owner_start hinv hidle ho
    exact ⟨(g, h), hinv', ClientSafe.retireIfEmpty hid hown⟩
  | exit =>
    obtain ⟨s', ho, rfl⟩ := Option.map_eq_some_iff.mp hm
    obtain ⟨rfl, g, h, hid, hown, hgone, hem, hinv'⟩ := owner_start hinv hidle ho
    exact ⟨(g, h), hinv', ClientSafe.abandonOwnedPage hid hown hgone hem⟩
  | reclaim =>
    simp only [clientSystem] at hm
    split at hm
    · cases hm
    · cases hm
      refine ⟨((γ t).1, (γ t).2.next), ?_, ?_⟩
      · apply clientOutline_inv
        · rw [Function.update_eq_self (f := fun u => (γ u).1)]
          exact hinv.1
        · exact hinv.2.next
      · exact ClientSafe.reclaim ⟨hidle.freeing, hidle.captured, hidle.got, hidle.own⟩ rfl

/-- The pointer that an operation returns is handed out. -/
theorem answer_finish {size : ℕ} {r : Option ℕ} (hinv : (clientOutline ar).inv m γ)
    (ha : Answered ar size r (γ t).1 (γ t).2) :
    ∃ g, (clientOutline ar).inv (r.elim m (m.handOut ar)) (Function.update γ t g) ∧
      ClientIdle g.1 g.2 := by
  cases r with
  | none =>
    refine ⟨γ t, ?_, ha.freeing, ha.captured, ha.none rfl, fun _ => Or.inl ha.stamped⟩
    rw [Function.update_eq_self]
    exact hinv
  | some p =>
    obtain ⟨b, hs⟩ := ha.some p rfl
    refine ⟨((γ t).1, (γ t).2.done), ?_, ha.freeing, ha.captured, rfl,
      fun _ => Or.inl ha.stamped⟩
    apply clientOutline_inv
    · rw [Function.update_eq_self (f := fun u => (γ u).1)]
      exact hinv.1
    · exact hinv.2.handOut hs

theorem clientSystem_finish {o : ClientOp} {r : o.Res} (hinv : (clientOutline ar).inv m γ)
    (hpost : clientPost ar t o r (γ t)) :
    ∃ g, (clientOutline ar).inv ((clientSystem ar).finish t o r m) (Function.update γ t g) ∧
      ClientIdle g.1 g.2 := by
  have hsame : ClientIdle (γ t).1 (γ t).2 →
      ∃ g, (clientOutline ar).inv m (Function.update γ t g) ∧ ClientIdle g.1 g.2 := fun hidle =>
    ⟨γ t, by rwa [Function.update_eq_self], hidle⟩
  cases o with
  | alloc size | allocAligned size align =>
    cases r <;> exact answer_finish hinv hpost
  | allocZeroed size | allocZeroedAligned size align =>
    cases r <;> exact answer_finish hinv hpost.1
  | reclaim =>
    cases r with
    | false => exact hsame hpost.1
    | true =>
      obtain ⟨hidle, hown⟩ := hpost
      refine ⟨({ (γ t).1 with reported := (γ t).1.reported + 1 }, (γ t).2), ?_,
        hidle.freeing, hidle.captured, hidle.got, hidle.own⟩
      apply clientOutline_inv
      · exact hinv.1.report (hown rfl)
      · rw [Function.update_eq_self (f := fun u => (γ u).2)]
        exact hinv.2.report
  | free p | write b content | isFull | collect | collectRetired | exit => exact hsame hpost

end Start

section Runs

variable {c : Config ClientAct ℕ ClientOp ClientOp.Res ClientMem}

/-- **The invariant of a page and its blocks**, over every run of the operations on it. -/
theorem clientSystem_reachable
    (h : (clientSystem ar).Reachable (ClientMem.Init ar) System.anyMove c) :
    ∃ γ, (clientOutline ar).inv c.mem γ ∧ ∀ t, (clientOutline ar).Thread (clientMachine ar)
      (fun _ g => ClientIdle g.1 g.2) (clientPost ar) t (γ t) (c.thread t) := by
  apply Outline.reachable (O := clientOutline ar) (fun s hs => hs.inv) _ _ _ h
  · exact fun t o s s' γ hinv hidle hs => clientSystem_start hinv hidle hs
  · exact fun t o r s γ hinv hpost => clientSystem_finish hinv hpost
  · exact fun c m _ => fun _ _ _ _ _ _ _ _ => trivial

/-- The assertions of the outline in every reachable configuration. -/
theorem clientSystem_asserts
    (h : (clientSystem ar).Reachable (ClientMem.Init ar) System.anyMove c) {o : ClientOp}
    {β : Type} {e : ClientAct β} {k : β → Prog ClientAct o.Res}
    (ht : c.thread t = some ⟨o, .act e k⟩) {choice : ℕ} {r : β × ClientMem}
    (he : c.mem.exec ar t e choice = some r) : (clientOutline ar).asserts t e c.mem := by
  obtain ⟨γ, hinv, hth⟩ := clientSystem_reachable h
  exact Outline.asserts_of_thread (O := clientOutline ar) hinv (hth t) ht trivial he

end Runs

end MimallocRs
