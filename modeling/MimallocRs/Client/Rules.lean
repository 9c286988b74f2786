import MimallocRs.Client.Effect
import MimallocRs.Page.Outline

/-!
# Rules for the events of a page and its blocks

One rule for each event that a thread learns something from: what it has to know before, and what it
knows afterwards.
-/

namespace MimallocRs

open Interleave

variable {ar : Area} {t : ℕ} {α β : Type} {g : Ghost} {h : Know} {Q : α → Ghost × Know → Prop}

/-! ## The owner id -/

theorem ownerId_eq (m : ClientMem) : m.ownerId = m.shared.page.xthreadId / 4 * 4 := by
  have := Nat.div_add_mod m.shared.page.xthreadId 4
  unfold ClientMem.ownerId
  simp only [miPageFlagMask]
  omega

/-- The owner id `id` with the flags of `old` carries the flags of `old`. -/
theorem testBit_stamp {id old : ℕ} (hid : id % 4 = 0) :
    (id + old % 4).testBit 1 = old.testBit 1 := by
  have h : ∀ x : ℕ, x.testBit 1 = (x % 4).testBit 1 := fun x => by
    simpa using (Nat.testBit_mod_two_pow x 2 1).symm
  rw [h (id + old % 4), h old]
  congr 1
  omega

/-- The holder has stamped the page. -/
theorem Knows.stampId {m : ClientMem} {κ : ℕ → Know} {old id : ℕ} (hk : Knows ar m κ)
    (hh : κ t = h) (hholder : m.shared.holder = some t)
    (hid : id = currentTid t ∨ id = miThreadidAbandoned ∨ id = miThreadidAbandonedMapped)
    (hold : m.shared.page.xthreadId = old) :
    Knows ar { m with shared := { m.shared with page := { m.shared.page with
        xthreadId := id + old % (miPageFlagMask + 1) } } }
      (Function.update κ t { h with stamped := decide (id = currentTid t) }) := by
  have hid4 : id % 4 = 0 := by
    rcases hid with rfl | rfl | rfl
    · exact currentTid_mod t
    · rfl
    · rfl
  have howner : (id + old % (miPageFlagMask + 1)) / 4 * 4 = id := by
    simp only [miPageFlagMask]
    omega
  have hflag : ∀ {m' : ClientMem}, m'.shared.page.xthreadId = id + old % (miPageFlagMask + 1) →
      m.HasInterior → m'.HasInterior := fun hm' hf => by
    unfold ClientMem.HasInterior at hf ⊢
    rw [hm']
    exact (testBit_stamp hid4).trans (hold ▸ hf)
  -- what is not about the owner id
  have key := Know.update_eq (κ := κ) (·.got) { h with stamped := decide (id = currentTid t) } hh
    rfl
  exact {
    reserved := hk.reserved
    fault := hk.fault
    ptr := fun b p hb => by
      obtain ⟨hlive, hin, hf⟩ := hk.ptr b p hb
      exact ⟨hlive, hin, fun hne => hflag rfl (hf hne)⟩
    clean := hk.clean
    released := hk.released
    stamp := fun u hu => by
      have hu : id = currentTid u := by
        rw [ownerId_eq] at hu
        exact howner.symm.trans hu
      by_cases hut : u = t
      · subst hut
        rw [Function.update_self]
        exact ⟨hholder, decide_eq_true hu⟩
      · rcases hid with hid | rfl | rfl
        · exact absurd (currentTid_inj (hu.symm.trans hid)) hut
        · simp [currentTid, miThreadidAbandoned] at hu
        · simp only [currentTid, miThreadidAbandonedMapped, miPageFlagMask] at hu
          omega
    got_inj := fun u v b => by
      rw [key u, key v]
      exact hk.got_inj u v b
    unserved := fun hu => by
      obtain ⟨hlive, hptr, hgot, hz⟩ := hk.unserved hu
      exact ⟨hlive, hptr, fun u => by rw [key u]; exact hgot u, hz⟩
    view := by
      have hv := hk.view t
      rw [hh] at hv
      apply Know.View.of_update
      · refine ⟨fun hs => ⟨hholder, ?_⟩, fun hf => hflag rfl (hv.flagged hf), hv.got, hv.zero,
          hv.cleared, hv.emptied, hv.gone, hv.released⟩
        rw [ownerId_eq]
        exact howner.trans (of_decide_eq_true hs)
      · intro u hut
        have hv := hk.view u
        refine ⟨fun hs => ?_, fun hf => hflag rfl (hv.flagged hf), hv.got, hv.zero,
          hv.cleared, hv.emptied, hv.gone, hv.released⟩
        exact absurd (Option.some.inj ((hv.stamped hs).1.symm.trans hholder)) hut }

/-- The holder has released a page that it knows to be empty. -/
theorem Knows.release {m : ClientMem} {κ : ℕ → Know} {fr lo : List Blk} (hk : Knows ar m κ)
    (hh : κ t = h) (hp : Partition m.shared fr lo) (hem : h.emptied = true) :
    Knows ar { m with shared := { m.shared with released := true } }
      (Function.update κ t { h with emptied := false, gone := true }) := by
  have hv := hk.view t
  rw [hh] at hv
  obtain ⟨hholder, hused⟩ := hv.emptied hem
  have hempty : ∀ b, ¬ m.shared.Outstanding b := fun b hb => by
    have := hp.lists.used_pos (hp.out_lt b hb) (hp.out_off b hb)
    omega
  have key := Know.update_eq (κ := κ) (fun h => (h.got, h.stamped))
    { h with emptied := false, gone := true } hh rfl
  simp only [Prod.mk.injEq] at key
  exact {
    reserved := hk.reserved
    fault := hk.fault
    ptr := hk.ptr
    clean := hk.clean
    released := fun _ => ⟨⟨t, hholder⟩, hempty⟩
    stamp := fun u hu => by
      rw [(key u).2]
      exact hk.stamp u hu
    got_inj := fun u v b => by
      rw [(key u).1, (key v).1]
      exact hk.got_inj u v b
    unserved := fun hu => by
      obtain ⟨hlive, hptr, hgot, hz⟩ := hk.unserved hu
      exact ⟨hlive, hptr, fun u => (key u).1 ▸ hgot u, hz⟩
    view := by
      apply Know.View.of_update
      · exact ⟨hv.stamped, hv.flagged, hv.got, hv.zero, hv.cleared, (fun h => by cases h),
          fun _ => ⟨hholder, rfl⟩, fun _ _ => rfl⟩
      · intro u hut
        have hvu := hk.view u
        refine ⟨hvu.stamped, hvu.flagged, hvu.got, hvu.zero, hvu.cleared, hvu.emptied,
          fun hg => ⟨(hvu.gone hg).1, rfl⟩, fun hu => ?_⟩
        exact absurd (Option.some.inj (hu.symm.trans hholder)) hut }

/-- A thread has zeroed bytes of the block that it has popped. -/
theorem Knows.writeZero {m : ClientMem} {κ : ℕ → Know} {a n : ℕ} {b : Blk} (hk : Knows ar m κ)
    (hh : κ t = h) (hb : h.got = some b) (hle : ar.blockStart b ≤ a)
    (hlt : a + n ≤ ar.blockStart b + ar.blockSize) :
    Knows ar { m with bytes := fun x => if a ≤ x ∧ x < a + n then 0 else m.bytes x }
      (Function.update κ t { h with zero := fun x => h.zero x ∨ a ≤ x ∧ x < a + n }) := by
  have hv := hk.view t
  rw [hh] at hv
  -- a byte that is zero stays zero
  have hzero : ∀ x, m.bytes x = 0 → (if a ≤ x ∧ x < a + n then 0 else m.bytes x) = 0 :=
    fun x hx => by
      split
      · rfl
      · exact hx
  have hfrom : ∀ k c, ar.ZeroFrom m.bytes k c →
      ar.ZeroFrom (fun x => if a ≤ x ∧ x < a + n then 0 else m.bytes x) k c :=
    fun k c hz x hx hx' => hzero x (hz x hx hx')
  have key := Know.update_eq (κ := κ) (fun h => (h.got, h.stamped))
    { h with zero := fun x => h.zero x ∨ a ≤ x ∧ x < a + n } hh rfl
  simp only [Prod.mk.injEq] at key
  exact {
    reserved := hk.reserved
    fault := hk.fault
    ptr := hk.ptr
    clean := fun hz hbig c hc => hfrom _ c (hk.clean hz hbig c hc)
    released := hk.released
    stamp := fun u hu => by
      rw [(key u).2]
      exact hk.stamp u hu
    got_inj := fun u v c => by
      rw [(key u).1, (key v).1]
      exact hk.got_inj u v c
    unserved := fun hu => by
      obtain ⟨hlive, hptr, hgot, hz⟩ := hk.unserved hu
      exact ⟨hlive, hptr, fun u => (key u).1 ▸ hgot u,
        fun hf => hfrom _ 0 (hz hf)⟩
    view := by
      have hgot : ∀ {v : Know} {u : ℕ}, v.View ar m u → ∀ c, v.got = some c → c ∈ m.shared.live ∧
          m.ptr c = none ∧ (m.shared.page.freeIsZero = true → miSmallSizeMax < ar.blockSize →
            ar.ZeroFrom (fun x => if a ≤ x ∧ x < a + n then 0 else m.bytes x) ar.linkBytes c) :=
        fun hv c hc => by
          obtain ⟨hlive, hptr, hz⟩ := hv.got c hc
          exact ⟨hlive, hptr, fun hf hbig => hfrom _ c (hz hf hbig)⟩
      apply Know.View.of_update
      · refine ⟨hv.stamped, hv.flagged, fun c hc => hgot hv c hc, ?_, hv.cleared, hv.emptied,
          hv.gone, hv.released⟩
        rintro x (hx | hx)
        · obtain ⟨hx, c, hc⟩ := hv.zero x hx
          exact ⟨hzero x hx, c, hc⟩
        · exact ⟨if_pos hx, b, hb, by omega, by omega⟩
      · intro u _
        have hvu := hk.view u
        refine ⟨hvu.stamped, hvu.flagged, hgot hvu, fun x hx => ?_, hvu.cleared, hvu.emptied,
          hvu.gone, hvu.released⟩
        obtain ⟨hx, c, hc⟩ := hvu.zero x hx
        exact ⟨hzero x hx, c, hc⟩ }

namespace ClientSafe

/-- A thread reads the owner id: if it is its own, the thread holds the page. -/
theorem loadId {k : ℕ → Prog ClientAct α}
    (hk : ∀ raw, (raw / 4 * 4 = currentTid t → g.own = true ∧ h.stamped = true) →
      (h.stamped = true → raw / 4 * 4 = currentTid t) →
      (h.flagged = true → raw.testBit 1 = true) → ClientSafe ar t (k raw) g h Q) :
    ClientSafe ar t (.act (.page .loadId) k) g h Q := by
  apply pageActPlain (e := .loadId) (fun _ _ => trivial) (fun _ _ => rfl) (K := fun _ g' => g' = g)
    (PageSafe.loadId fun _ => Safe.ret rfl)
  intro m γ κ choice raw s' g' hi hkn hh hex hi' hg'
  cases hex
  subst hg'
  have hv := hkn.view t
  rw [hh] at hv
  refine ⟨h, ?_, ?_⟩
  · rwa [← hh, Function.update_eq_self]
  · apply hk
    · intro hid
      obtain ⟨hholder, hs⟩ := hkn.stamp t ((ownerId_eq m).trans hid)
      have hown := (hi'.ownership.holder t).mpr hholder
      rw [Function.update_self] at hown
      exact ⟨hown, hh ▸ hs⟩
    · exact fun hs => (ownerId_eq m).symm.trans (hv.stamped hs).2
    · exact hv.flagged

/-- The holder stamps the page with the id `id`, its own or one of an abandoned page. -/
theorem casId {old id : ℕ} {k : Option ℕ → Prog ClientAct α} (hown : g.own = true)
    (hid : id = currentTid t ∨ id = miThreadidAbandoned ∨ id = miThreadidAbandonedMapped)
    (hfail : ∀ seen, ClientSafe ar t (k (some seen)) g h Q)
    (hsucc : ClientSafe ar t (k none) g { h with stamped := decide (id = currentTid t) } Q) :
    ClientSafe ar t (.act (.page (.casId old (id + old % (miPageFlagMask + 1)))) k) g h Q := by
  have hid4 : id % 4 = 0 := by
    rcases hid with rfl | rfl | rfl
    · exact currentTid_mod t
    · rfl
    · rfl
  apply pageActPlain (e := .casId old (id + old % (miPageFlagMask + 1)))
    (fun _ _ => by exact testBit_stamp hid4) (fun _ _ => rfl) (K := fun _ g' => g' = g)
    (PageSafe.casId fun _ => Safe.ret rfl)
  intro m γ κ choice r s' g' hi hkn hh hex hi' hg'
  subst hg'
  have hholder' : s'.holder = some t := (hi'.ownership.holder t).mp (by
    rwa [Function.update_self])
  simp only [Shared.exec] at hex
  split at hex
  · next hold =>
    cases hex
    exact ⟨_, hkn.stampId hh hholder' hid hold.1, hsucc⟩
  · cases hex
    refine ⟨h, ?_, hfail _⟩
    rwa [← hh, Function.update_eq_self]

/-- `set_owner` by the holder. -/
theorem setOwner {id : ℕ} (hown : g.own = true)
    (hid : id = currentTid t ∨ id = miThreadidAbandoned ∨ id = miThreadidAbandonedMapped) :
    ClientSafe ar t (Client.onPage (Page.setOwner id)) g h fun _ g' =>
      g' = (g, { h with stamped := decide (id = currentTid t) }) := by
  apply loadId
  intro old _ _ _
  apply Safe.loop (fun _ g' => g' = (g, h)) _ rfl
  rintro old _ rfl
  apply casId hown hid
  · exact fun seen => Safe.ret rfl
  · exact Safe.ret (Safe.ret rfl)

/-! ## Collecting -/

/-- A thread clears `free_is_zero`. -/
theorem clearZero {k : Unit → Prog ClientAct α}
    (hk : ClientSafe ar t (k ()) g { h with cleared := true } Q) :
    ClientSafe ar t (.act (.page .clearZero) k) g h Q := by
  apply pageAct (e := .clearZero) (fun _ _ => trivial) (K := fun _ g' => g' = g)
    (PageSafe.clearZero (Safe.ret rfl))
  intro m γ κ choice r s' g' hi hkn hh ha hex hi' hg'
  subst hg'
  have hv := hkn.view t
  rw [hh] at hv
  have heff : Effect ar t m _ := Effect.of_page hi ha trivial hex
  cases hex
  have hv' := heff.view_self hkn hv (fun hh => Or.inl hh) fun _ => rfl
  refine ⟨_, hkn.of_effect heff ?_ ?_ ?_ ?_, hk⟩
  · exact ⟨hv'.stamped, hv'.flagged, hv'.got, hv'.zero, fun _ => rfl, hv'.emptied, hv'.gone,
      hv'.released⟩
  · exact fun hs => hh ▸ hs
  · exact fun hg => (hv.gone (hh ▸ hg)).1
  · exact fun b hb => Or.inl (hh ▸ hb)

/-- The holder adopts `local_free`, and may forget that `free_is_zero` is clear. -/
theorem adoptLocal {k : Unit → Prog ClientAct α} (hown : g.own = true)
    (hk : ClientSafe ar t (k ()) { g with free := none } h Q) :
    ClientSafe ar t (.act (.page .adoptLocal) k) g { h with cleared := true } Q := by
  apply pageAct (e := .adoptLocal) (fun _ _ => trivial)
    (K := fun _ g' => g' = { g with free := none }) (PageSafe.adoptLocal hown (Safe.ret rfl))
  intro m γ κ choice r s' g' hi hkn hh ha hex hi' hg'
  subst hg'
  have hv := hkn.view t
  rw [hh] at hv
  have heff : Effect ar t m _ := Effect.of_page hi ha trivial hex
  cases hex
  have hv' := heff.view_self hkn hv (fun hh => Or.inl hh) fun _ => Lists.adoptLocal_used
  refine ⟨h, hkn.of_effect heff ?_ ?_ ?_ ?_, hk⟩
  · exact ⟨hv'.stamped, hv'.flagged, hv'.got, hv'.zero, fun _ => hv'.cleared rfl, hv'.emptied,
      hv'.gone, hv'.released⟩
  · exact fun hs => by rwa [hh] at hs
  · exact fun hg => (hv.gone (by rwa [hh] at hg)).1
  · exact fun b hb => Or.inl (by rw [hh]; exact hb)

/-! ## Emptying and releasing -/

/-- The holder tests whether all blocks are free. -/
theorem isAllFree {k : Bool → Prog ClientAct α} (hown : g.own = true) (hcap : g.captured = none)
    (hk : ∀ r, ClientSafe ar t (k r) { g with tested := !r } { h with emptied := r } Q) :
    ClientSafe ar t (.act (.page .isAllFree) k) g h Q := by
  apply pageActPlain (e := .isAllFree) (fun _ _ => trivial) (fun _ _ => rfl)
    (K := fun r g' => g' = { g with tested := !r })
    (PageSafe.isAllFree hown hcap fun r => Safe.ret rfl)
  intro m γ κ choice r s' g' hi hkn hh hex hi' hg'
  subst hg'
  have hholder : s'.holder = some t := (hi'.ownership.holder t).mp (by
    rwa [Function.update_self])
  have hv := hkn.view t
  rw [hh] at hv
  have heff : Effect ar t m _ := Effect.of_page_plain (e := .isAllFree) (fun _ _ => rfl) hi trivial
    trivial hex
  cases hex
  have hv' := heff.view_self hkn hv (fun hh => Or.inl hh) fun _ => rfl
  refine ⟨_, hkn.of_effect heff ?_ ?_ ?_ ?_, hk _⟩
  · exact ⟨hv'.stamped, hv'.flagged, hv'.got, hv'.zero, hv'.cleared,
      fun hz => ⟨hholder, by simpa using hz⟩, hv'.gone, hv'.released⟩
  · exact fun hs => hh ▸ hs
  · exact fun hg => (hv.gone (hh ▸ hg)).1
  · exact fun b hb => Or.inl (hh ▸ hb)

/-- The holder of an empty page releases it. -/
theorem release {k : Unit → Prog ClientAct α} (hem : h.emptied = true)
    (hk : ClientSafe ar t (k ()) g { h with emptied := false, gone := true } Q) :
    ClientSafe ar t (.act (.page .release) k) g h Q := by
  apply pageActPlain (e := .release) (fun _ _ => trivial) (fun _ _ => rfl) (K := fun _ g' => g' = g)
    (PageSafe.release (Safe.ret rfl))
  intro m γ κ choice r s' g' hi hkn hh hex hi' hg'
  subst hg'
  cases hex
  obtain ⟨fr, lo, hp⟩ := hi.partition
  exact ⟨_, hkn.release hh hp hem, hk⟩

/-! ## Allocating -/

/-- The holder pops the block it has read. -/
theorem pop {b : Blk} {k : Unit → Prog ClientAct α} (hown : g.own = true)
    (hfree : g.free = some (some b)) (hhuge : ar.huge = false) (hgone : h.gone = false)
    (hem : h.emptied = false)
    (hk : b < ar.reserved → ClientSafe ar t (k ()) { g with free := none }
      { h with got := some b, zero := fun _ => False } Q) :
    ClientSafe ar t (.act (.page (.pop b)) k) g h Q := by
  apply pageAct (e := .pop b) (fun _ _ => trivial) (K := fun _ g' => g' = { g with free := none })
    (PageSafe.pop hown hfree (Safe.ret rfl))
  intro m γ κ choice r s' g' hi hkn hh ha hex hi' hg'
  subst hg'
  have hv := hkn.view t
  rw [hh] at hv
  obtain ⟨hholder, hhead⟩ := ha
  have hreleased : m.shared.released = false := Bool.eq_false_iff.mpr fun hr => by
    rw [hv.released hholder hr] at hgone
    cases hgone
  have heff : Effect ar t m _ := Effect.of_page (e := .pop b) hi ⟨hholder, hhead⟩ hreleased hex
  cases hex
  obtain ⟨fr, lo, hp⟩ := hi.partition
  obtain ⟨hout, fr', rfl, -⟩ := hp.pop hhead
  have hlt : b < ar.reserved :=
    hkn.reserved ▸ Nat.lt_of_lt_of_le (hp.lists.lt b (by simp)) hp.lists.capacity_le
  have hfresh : m.shared.page.Fresh b := (hp.lists.fresh_iff b).mpr (Or.inl (by simp))
  have hv' := heff.view_self hkn hv (fun hh => Or.inl hh) fun he => by
    rw [hem] at he
    cases he
  refine ⟨_, hkn.of_effect heff ?_ ?_ ?_ ?_, hk hlt⟩
  · refine ⟨hv'.stamped, hv'.flagged, fun c hc => ?_, fun a ha => ha.elim, hv'.cleared,
      hv'.emptied, hv'.gone, hv'.released⟩
    cases hc
    refine ⟨List.mem_cons_self, ?_, fun hz hbig => ?_⟩
    · by_contra hptr
      obtain ⟨p, hptr⟩ := Option.ne_none_iff_exists'.mp hptr
      exact hout (Or.inl (hkn.ptr b p hptr).1)
    · rw [Area.linkBytes, hhuge, if_neg (by simp)]
      exact heff.behind b _ (Nat.le_refl _) (hkn.clean hz hbig b hfresh)
  · exact fun hs => hh ▸ hs
  · exact fun hg => (hv.gone (hh ▸ hg)).1
  · intro c hc
    cases hc
    exact Or.inr fun hlive => hout (Or.inl hlive)

/-! ## Events that leave the lists of the page alone -/

/-- An event that is none of the page's own. -/
theorem otherAct {e : ClientAct β} {k : β → Prog ClientAct α}
    (ha : ∀ m, (clientOutline ar).asserts t e m)
    (hstep : ∀ (m : ClientMem) γ κ choice b m', PageInv False m.shared γ → γ t = g →
      Knows ar m κ → κ t = h → m.exec ar t e choice = some (b, m') →
      PageInv False m'.shared γ ∧ ∃ h', Knows ar m' (Function.update κ t h') ∧
        ClientSafe ar t (k b) g h' Q) : ClientSafe ar t (.act e k) g h Q := by
  apply Safe.act
  intro m γ choice b m' hinv hg _ hex
  obtain ⟨hi', h', hk', hsafe⟩ := hstep m _ _ choice b m' hinv.1 (congrArg Prod.fst hg) hinv.2
    (congrArg Prod.snd hg) hex
  refine ⟨ha m, (g, h'), clientOutline_inv ?_ hk', hsafe⟩
  have hg₁ : (γ t).1 = g := congrArg Prod.fst hg
  rw [← hg₁]
  rwa [Function.update_eq_self (f := fun u => (γ u).1)]

/-- A thread sets the flag of interior pointers. -/
theorem setHasInterior {k : Unit → Prog ClientAct α}
    (hk : ClientSafe ar t (k ()) g { h with flagged := true } Q) :
    ClientSafe ar t (.act (.setHasInterior id) k) g h Q := by
  apply otherAct (fun _ => by trivial)
  intro m γ κ choice b m' hi hg hkn hh hex
  cases hex
  have hv := hkn.view t
  rw [hh] at hv
  set x := m.shared.page.xthreadId with hx
  have hbit : (x ||| miPageHasInteriorPointers).testBit 1 = true := by
    rw [Nat.testBit_or, show Nat.testBit miPageHasInteriorPointers 1 = true from rfl, Bool.or_true]
  have hdiv : (x ||| miPageHasInteriorPointers) / 4 = x / 4 := by
    have := Nat.shiftRight_or_distrib (a := x) (b := 2) (i := 2)
    simpa [Nat.shiftRight_eq_div_pow, miPageHasInteriorPointers] using this
  have heff : Effect ar t m { m with shared := { m.shared with page := { m.shared.page with
      xthreadId := x ||| miPageHasInteriorPointers } } } := by
    refine { Effect.refl m with interior := fun _ => hbit, ownerId := ?_ }
    rw [ownerId_eq, ownerId_eq]
    exact congrArg (· * 4) hdiv
  have hv' := heff.view_self hkn hv (fun hh => Or.inl hh) fun _ => rfl
  refine ⟨hi.of_aside ⟨_, _, _, _, rfl⟩, _, hkn.of_effect heff ?_ ?_ ?_ ?_, hk⟩
  · exact ⟨hv'.stamped, fun _ => hbit, hv'.got, hv'.zero, hv'.cleared, hv'.emptied, hv'.gone,
      hv'.released⟩
  · exact fun hs => hh ▸ hs
  · exact fun hg => (hv.gone (hh ▸ hg)).1
  · exact fun b hb => Or.inl (hh ▸ hb)

/-- The page of a block that a thread has popped or frees is found. -/
theorem find {a : ℕ} {b : Blk} {k : Bool → Prog ClientAct α}
    (hb : g.freeing = some b ∨ h.got = some b) (ha : ar.Inside a b)
    (hk : ClientSafe ar t (k true) g h Q) :
    ClientSafe ar t (.act (ClientAct.find a) k) g h Q := by
  apply otherAct (fun _ => by trivial)
  intro m γ κ choice r m' hi hg hkn hh hex
  cases hex
  obtain ⟨fr, lo, hp⟩ := hi.partition
  have hout : m.shared.Outstanding b := by
    rcases hb with hb | hb
    · exact Or.inr ⟨t, (hi.view t).freeing.trans (hg ▸ hb)⟩
    · exact Or.inl ((hkn.view t).got b (hh ▸ hb)).1
  have hlt : b < ar.reserved :=
    hkn.reserved ▸ Nat.lt_of_lt_of_le (hp.out_lt b hout) hp.lists.capacity_le
  have hreleased : m.shared.released = false := Bool.eq_false_iff.mpr fun hr =>
    (hkn.released hr).2 b hout
  refine ⟨hi, h, ?_, ?_⟩
  · rwa [← hh, Function.update_eq_self]
  · simpa [hreleased, ha.mapped hlt] using hk

/-- A theap decides whether to keep an empty page. -/
theorem keeps {k : Bool → Prog ClientAct α} (hk : ∀ r, ClientSafe ar t (k r) g h Q) :
    ClientSafe ar t (.act (.keeps id) k) g h Q := by
  apply otherAct (fun _ => by trivial)
  intro m γ κ choice r m' hi hg hkn hh hex
  cases hex
  exact ⟨hi, h, by rwa [← hh, Function.update_eq_self], hk _⟩

/-- A thread that has popped a block of more than `MI_SMALL_SIZE_MAX` bytes reads `free_is_zero`. -/
theorem freeIsZero {b : Blk} {k : Bool → Prog ClientAct α} (hb : h.got = some b)
    (hbig : miSmallSizeMax < ar.blockSize)
    (htrue : ClientSafe ar t (k true) g { h with zero := ar.BehindLink b } Q)
    (hfalse : ClientSafe ar t (k false) g h Q) :
    ClientSafe ar t (.act (.freeIsZero id) k) g h Q := by
  apply otherAct (fun _ => by trivial)
  intro m γ κ choice r m' hi hg hkn hh hex
  cases hex
  have hv := hkn.view t
  rw [hh] at hv
  refine ⟨hi, ?_⟩
  cases hz : m.shared.page.freeIsZero with
  | false => exact ⟨h, by rwa [← hh, Function.update_eq_self], hfalse⟩
  | true =>
    refine ⟨_, hkn.of_effect (Effect.refl m) ?_ ?_ ?_ ?_, htrue⟩
    · refine ⟨hv.stamped, hv.flagged, hv.got, ?_, hv.cleared, hv.emptied, hv.gone, hv.released⟩
      rintro a ⟨hle, hlt⟩
      exact ⟨(hv.got b hb).2.2 hz hbig a hle hlt, b, hb,
        Nat.le_trans (Nat.le_add_right _ _) hle, hlt⟩
    · exact fun hs => hh ▸ hs
    · exact fun hg => (hv.gone (hh ▸ hg)).1
    · exact fun c hc => Or.inl (hh ▸ hc)

/-- A thread zeroes bytes of the block that it has popped. -/
theorem writeZero {a n : ℕ} {b : Blk} {k : Unit → Prog ClientAct α} (hb : h.got = some b)
    (hle : ar.blockStart b ≤ a) (hlt : a + n ≤ ar.blockStart b + ar.blockSize)
    (hk : ClientSafe ar t (k ()) g { h with zero := fun x => h.zero x ∨ a ≤ x ∧ x < a + n } Q) :
    ClientSafe ar t (.act (.writeZero a n id) k) g h Q := by
  apply otherAct (fun _ => by trivial)
  intro m γ κ choice r m' hi hg hkn hh hex
  cases hex
  exact ⟨hi, _, hkn.writeZero hh hb hle hlt, hk⟩

end ClientSafe

end MimallocRs
