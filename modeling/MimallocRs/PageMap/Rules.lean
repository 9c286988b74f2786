import MimallocRs.PageMap.Invariant

/-!
# Rules for the events of the page map

One rule for each event that changes the page map: what the thread has to know before it, and what
it knows afterwards. A load is covered by `MapSafe.read`, where the thread may add to its ghost
whatever is true of the state that it reads.
-/

namespace MimallocRs

open Interleave

variable {Tid : Type} [DecidableEq Tid]

/-- `Safe` for the programs of the page map. -/
abbrev MapSafe {α : Type} (topCount : ℕ) (t : Tid) (p : Prog MapAct α) (g : MapGhost)
    (Q : α → MapGhost → Prop) : Prop :=
  Safe (pageMapSystem Tid topCount).toMachine (mapOutline Tid topCount) t p g Q

variable {topCount : ℕ} {s s' : PageMem Tid} {t : Tid} {g g' : MapGhost} {α β : Type}
  {Q : α → MapGhost → Prop}

omit [DecidableEq Tid] in
/-- A thread enters another phase. -/
theorem MapView.withPhase (h : MapView topCount s t g) {x : Phase} (hx : x.Holds topCount s) :
    MapView topCount s t { g with phase := x } :=
  ⟨hx, h.top, h.entry, h.pages, h.looking, h.seen⟩

omit [DecidableEq Tid] in
/-- A thread enters another phase by a step that changes nothing it has found. -/
theorem MapView.stepPhase (h : MapView topCount s t g) (hlater : Later s s')
    (hcalls : SameCalls s s') (hvalue : ∀ w, s'.value topCount w = s.value topCount w) {x : Phase}
    (hx : x.Holds topCount s') : MapView topCount s' t { g with phase := x } := by
  have hfree : MapView topCount s t { g with phase := .free } := h.withPhase trivial
  apply (hfree.later hlater hcalls trivial ?_).withPhase hx
  intro r hr w hw
  rw [hvalue]
  exact h.pages r hr w hw

namespace MapSafe

/-- A load. -/
theorem read {e : MapAct β} {k : β → Prog MapAct α}
    (h : ∀ (s : PageMem Tid) choice b s', Tables topCount s → MapView topCount s t g →
      s.exec e choice = some (b, s') →
      (∀ w, (∀ x ∈ s.busy, ¬ Covers x.2 w) → s.value topCount w = (s.mapped w).getD 0) →
      (∀ w, g.looking = some w → s.quiet t = true → ∀ x ∈ s.busy, ¬ Covers x.2 w) →
      s' = s ∧ mapAsserts t e s ∧ ∃ g', (g'.phase ≠ .free → g.phase ≠ .free) ∧
        g'.range = g.range ∧ MapView topCount s t g' ∧ MapSafe topCount t (k b) g' Q) :
    MapSafe topCount t (.act e k) g Q := by
  apply Safe.act
  intro s γ choice b s' hi hg _ hex
  have hv := hi.view t
  rw [hg] at hv
  obtain ⟨rfl, ha, g', hphase, hrange, hview, hsafe⟩ := h s choice b s' hi.tables hv hex
    hi.calls.settled fun w hw => hi.calls.quiet t w (hv.looking.trans hw)
  exact ⟨ha, g', hi.of_view hg hphase hrange hview, hsafe⟩

/-! ## The lock -/

theorem tryLock {k : Bool → Prog MapAct α}
    (hyes : MapSafe topCount t (k true) { g with phase := .locked } Q)
    (hno : MapSafe topCount t (k false) g Q) : MapSafe topCount t (.act .tryLock k) g Q := by
  apply Safe.act
  intro s γ choice b s' hi hg _ hex
  have hv := hi.view t
  rw [hg] at hv
  refine ⟨trivial, ?_⟩
  by_cases hc : s.locked = false ∧ choice = 0
  · have heq : s.exec (.tryLock : MapAct Bool) choice = some (true, s.setLocked true) :=
      if_pos hc
    cases heq.symm.trans hex
    refine ⟨{ g with phase := .locked }, ?_, hyes⟩
    refine hi.of_step hg ⟨fun _ h => h, fun _ _ _ _ h _ => h⟩ ⟨rfl, rfl, rfl, rfl, rfl⟩ rfl
      (fun _ _ => rfl) (fun u _ h => ?_) ⟨hi.tables.pos, hi.tables.shared, hi.tables.entries,
        hi.tables.inj⟩ ?_ ?_
    · exact h.of_eq rfl rfl rfl rfl rfl
    · -- nobody has held the lock
      have hall : ∀ u, u ≠ t → (Function.update γ t { g with phase := .locked } u).phase =
          .free := by
        intro u hu
        rw [Function.update_of_ne hu]
        by_contra hne
        have := hi.locking.locked u hne
        rw [hc.1] at this
        cases this
      refine ⟨fun u v hu hv => ?_, fun _ _ => rfl⟩
      have hut : u = t := by_contra fun hne => hu (hall u hne)
      have hvt : v = t := by_contra fun hne => hv (hall v hne)
      rw [hut, hvt]
    · apply hv.stepPhase (x := .locked)
      · exact ⟨fun _ h => h, fun _ _ _ _ h _ => h⟩
      · exact ⟨rfl, rfl, rfl, rfl, rfl⟩
      · exact fun _ => rfl
      · trivial
  · have heq : s.exec (.tryLock : MapAct Bool) choice = some (false, s) := if_neg hc
    cases heq.symm.trans hex
    exact ⟨g, hi.of_view hg id rfl hv, hno⟩

theorem unlock {k : Unit → Prog MapAct α} (hphase : g.phase ≠ .free)
    (h : MapSafe topCount t (k ()) { g with phase := .free } Q) :
    MapSafe topCount t (.act .unlock k) g Q := by
  apply Safe.act
  intro s γ choice b s' hi hg _ hex
  have hv := hi.view t
  rw [hg] at hv
  cases hex
  refine ⟨trivial, { g with phase := .free }, ?_, h⟩
  refine hi.of_step hg ⟨fun _ h => h, fun _ _ _ _ h _ => h⟩ ⟨rfl, rfl, rfl, rfl, rfl⟩ rfl
    (fun _ _ => rfl) (fun u _ h => ?_) ⟨hi.tables.pos, hi.tables.shared, hi.tables.entries,
      hi.tables.inj⟩ ?_ ?_
  · exact h.of_eq rfl rfl rfl rfl rfl
  · have hall : ∀ u, (Function.update γ t { g with phase := .free } u).phase = .free := by
      intro u
      by_cases hu : u = t
      · subst hu
        simp
      · rw [Function.update_of_ne hu]
        exact hi.locking.others hg hphase hu
    exact ⟨fun u _ hu => absurd (hall u) hu, fun u hu => absurd (hall u) hu⟩
  · apply hv.stepPhase (x := .free)
    · exact ⟨fun _ h => h, fun _ _ _ _ h _ => h⟩
    · exact ⟨rfl, rfl, rfl, rfl, rfl⟩
    · exact fun _ => rfl
    · trivial

/-- `SpinLock::lock` returns with the lock. -/
theorem lock : MapSafe topCount t PageMap.lock g fun _ g' => g' = { g with phase := .locked } := by
  apply Safe.loop fun _ g' => g' = g
  · intro _ g' hg'
    rw [hg']
    simp only [Prog.bind_eq, Prog.pure_eq, Prog.perform_bind]
    apply tryLock
    · exact Safe.ret (Safe.ret rfl)
    · simp only [Bool.false_eq_true, if_false, Prog.iterate_bind]
      apply Safe.loop fun _ g' => g' = g
      · intro _ g' hg'
        rw [hg']
        apply read
        intro s choice b s' _ hv hex _ _
        cases hex
        refine ⟨rfl, trivial, g, id, rfl, hv, ?_⟩
        cases s.locked with
        | true => exact Safe.ret rfl
        | false => exact Safe.ret (Safe.ret rfl)
      · rfl
  · rfl

/-! ## The top table -/

theorem allocTop {k : Option ℕ → Prog MapAct α} (hphase : g.phase = .noTop)
    (hsome : ∀ b, MapSafe topCount t (k (some b)) { g with phase := .draft b 0 } Q)
    (hnone : MapSafe topCount t (k none) g Q) : MapSafe topCount t (.act .allocTop k) g Q := by
  apply Safe.act
  intro s γ choice b s' hi hg _ hex
  have hv := hi.view t
  rw [hg] at hv
  have htop : (Phase.noTop).Holds topCount s := hphase ▸ hv.phase
  refine ⟨htop, ?_⟩
  simp only [pageMapSystem, PageMem.exec] at hex
  split at hex <;> cases hex
  · refine ⟨{ g with phase := .draft s.tables 0 }, ?_, hsome _⟩
    refine hi.of_holder hg (by simp [hphase]) (.of_noTop htop) ⟨rfl, rfl, rfl, rfl, rfl⟩ rfl
      rfl (PageMem.value_eq_of_noTop htop htop) (hi.tables.of_noTop htop rfl rfl) ?_
    apply hv.stepPhase
    · exact .of_noTop htop
    · exact ⟨rfl, rfl, rfl, rfl, rfl⟩
    · exact PageMem.value_eq_of_noTop htop htop
    · exact ⟨htop, Nat.lt_succ_self _, fun i hi => absurd hi (Nat.not_lt_zero i)⟩
  · exact ⟨g, hi.of_view hg id rfl hv, hnone⟩

theorem storeDraft {b i : ℕ} {k : Unit → Prog MapAct α} (hphase : g.phase = .draft b i)
    (h : MapSafe topCount t (k ()) { g with phase := .draft b (i + 1) } Q) :
    MapSafe topCount t (.act (.storeEntry b i 0) k) g Q := by
  apply Safe.act
  intro s γ choice r s' hi hg _ hex
  have hv := hi.view t
  rw [hg] at hv
  obtain ⟨htop, hb, hdone⟩ : (Phase.draft b i).Holds topCount s := hphase ▸ hv.phase
  cases hex
  refine ⟨fun h => ?_, { g with phase := .draft b (i + 1) }, ?_, h⟩
  · rw [htop] at h
    cases h
  · refine hi.of_holder hg (by simp [hphase]) (.of_noTop htop) ⟨rfl, rfl, rfl, rfl, rfl⟩ rfl
      rfl (PageMem.value_eq_of_noTop htop htop) (hi.tables.of_noTop htop rfl rfl) ?_
    apply hv.stepPhase
    · exact .of_noTop htop
    · exact ⟨rfl, rfl, rfl, rfl, rfl⟩
    · exact PageMem.value_eq_of_noTop htop htop
    · refine ⟨htop, hb, fun j hj => ?_⟩
      show Function.update s.entry b _ b j = some 0
      rw [Function.update_self]
      by_cases hji : j = i
      · rw [hji, Function.update_self]
      · rw [Function.update_of_ne hji]
        exact hdone j (by omega)

theorem storeTop {b : ℕ} {k : Unit → Prog MapAct α} (hphase : g.phase = .draft b topCount)
    (h : MapSafe topCount t (k ()) { g with phase := .locked, top := some b } Q) :
    MapSafe topCount t (.act (.storeTop b) k) g Q := by
  apply Safe.act
  intro s γ choice r s' hi hg _ hex
  have hv := hi.view t
  rw [hg] at hv
  obtain ⟨htop, -, hdone⟩ : (Phase.draft b topCount).Holds topCount s := hphase ▸ hv.phase
  cases hex
  refine ⟨htop, { g with phase := .locked, top := some b }, ?_, h⟩
  have hlater : Later s (s.setTop b) := .of_noTop htop
  have hvalue : ∀ w, (s.setTop b).value topCount w = s.value topCount w := by
    intro w
    rw [PageMem.value_of_noTop htop]
    by_cases hw : w / subCount < topCount
    · rw [PageMem.value_of_entry (s := s.setTop b) rfl hw (hdone _ hw)]
      exact hi.tables.shared _
    · exact PageMem.value_of_le (Nat.not_lt.mp hw)
  have hview : MapView topCount (s.setTop b) t { g with phase := .locked } :=
    hv.stepPhase hlater ⟨rfl, rfl, rfl, rfl, rfl⟩ hvalue trivial
  refine hi.of_holder hg (by simp [hphase]) hlater ⟨rfl, rfl, rfl, rfl, rfl⟩ rfl rfl hvalue
    ⟨hi.tables.pos, hi.tables.shared, ?_, ?_⟩
    ⟨trivial, fun _ hb => hb, hview.entry, hview.pages, hview.looking, hview.seen⟩
  · intro b' i hb' hi'
    cases hb'
    exact ⟨0, hi.tables.pos, hdone i hi'⟩
  · intro b' i j p hb' hi' _ hp _ hp0
    cases hb'
    exact absurd (Option.some.inj (hp.symm.trans (hdone i hi'))) hp0

/-! ## The submaps -/

theorem allocSub {i : ℕ} {k : Option ℕ → Prog MapAct α} (hphase : g.phase = .vacant i)
    (hsome : ∀ p, p ≠ 0 → MapSafe topCount t (k (some p)) { g with phase := .fresh i p } Q)
    (hnone : MapSafe topCount t (k none) g Q) : MapSafe topCount t (.act .allocSub k) g Q := by
  apply Safe.act
  intro s γ choice r s' hi hg _ hex
  have hv := hi.view t
  rw [hg] at hv
  obtain ⟨hlt, b, htop, hzero⟩ : (Phase.vacant i).Holds topCount s := hphase ▸ hv.phase
  refine ⟨trivial, ?_⟩
  simp only [pageMapSystem, PageMem.exec] at hex
  split at hex <;> cases hex
  · have hpos : s.submaps ≠ 0 := Nat.pos_iff_ne_zero.mp hi.tables.pos
    refine ⟨{ g with phase := .fresh i s.submaps }, ?_, hsome _ hpos⟩
    -- the submap that has been allocated is not in the table
    have hne : ∀ j < topCount, s.entry b j ≠ some s.submaps := by
      intro j hj he
      obtain ⟨p, hp, hep⟩ := hi.tables.entries b j htop hj
      cases hep.symm.trans he
      exact Nat.lt_irrefl _ hp
    have hlater : Later s s.addSub :=
      ⟨fun _ h => h, fun _ _ _ _ h _ => h⟩
    have hvalue : ∀ w, s.addSub.value topCount w = s.value topCount w := by
      intro w
      by_cases hw : w / subCount < topCount
      · obtain ⟨p, hp, hep⟩ := hi.tables.entries b _ htop hw
        rw [PageMem.value_of_entry htop hw hep, PageMem.value_of_entry (s := s.addSub) htop hw hep]
        show Function.update s.sub s.submaps _ p _ = _
        rw [Function.update_of_ne (Nat.ne_of_lt hp)]
      · rw [PageMem.value_of_le (Nat.not_lt.mp hw), PageMem.value_of_le (Nat.not_lt.mp hw)]
    refine hi.of_holder hg (by simp [hphase]) hlater ⟨rfl, rfl, rfl, rfl, rfl⟩ rfl rfl hvalue
      ⟨Nat.succ_pos _, fun j => ?_, fun b j hb hj => ?_, hi.tables.inj⟩
      (hv.stepPhase hlater ⟨rfl, rfl, rfl, rfl, rfl⟩ hvalue
        ⟨hlt, ⟨b, htop, hzero, hne⟩, hpos, Nat.lt_succ_self _, fun j => ?_⟩)
    · show Function.update s.sub s.submaps _ 0 j = 0
      rw [Function.update_of_ne hpos.symm]
      exact hi.tables.shared j
    · obtain ⟨p, hp, hep⟩ := hi.tables.entries b j hb hj
      exact ⟨p, Nat.lt_succ_of_lt hp, hep⟩
    · show Function.update s.sub s.submaps _ s.submaps j = 0
      rw [Function.update_self]
  · exact ⟨g, hi.of_view hg id rfl hv, hnone⟩

/-- A new submap is published. -/
theorem publish {b i p : ℕ} {k : Unit → Prog MapAct α} (hphase : g.phase = .fresh i p)
    (hb : g.top = some b)
    (h : MapSafe topCount t (k ()) { g with phase := .locked, entry := some (i, p) } Q) :
    MapSafe topCount t (.act (.storeEntry b i p) k) g Q := by
  apply Safe.act
  intro s γ choice r s' hi hg _ hex
  have hv := hi.view t
  rw [hg] at hv
  obtain ⟨hlt, ⟨b', htop, hzero, hne⟩, hp0, hp, hempty⟩ : (Phase.fresh i p).Holds topCount s :=
    hphase ▸ hv.phase
  cases (hv.top b hb).symm.trans htop
  cases hex
  refine ⟨fun _ => hzero, { g with phase := .locked, entry := some (i, p) }, ?_, h⟩
  have hentry : ∀ j q, (s.setEntry b i p).entry b j = some q ↔ (j = i ∧ q = p) ∨ (j ≠ i ∧ s.entry b j = some q) := by
    intro j q
    show Function.update s.entry b _ b j = some q ↔ _
    rw [Function.update_self]
    by_cases hj : j = i
    · simp [hj, eq_comm]
    · simp [hj]
  have hlater : Later s (s.setEntry b i p) := by
    refine ⟨fun _ h => h, fun b' j q hb' hq hq0 => ?_⟩
    cases htop.symm.trans hb'
    refine (hentry j q).mpr (Or.inr ⟨fun hj => ?_, hq⟩)
    rw [hj] at hq
    cases hzero.symm.trans hq
    exact hq0 rfl
  have hvalue : ∀ w, (s.setEntry b i p).value topCount w = s.value topCount w := by
    intro w
    by_cases hw : w / subCount < topCount
    · by_cases hwi : w / subCount = i
      · rw [PageMem.value_of_entry (s := s.setEntry b i p) htop hw
          ((hentry _ p).mpr (Or.inl ⟨hwi, rfl⟩)), PageMem.value_of_entry htop hw (hwi ▸ hzero)]
        exact (hempty _).trans (hi.tables.shared _).symm
      · obtain ⟨q, hq, heq⟩ := hi.tables.entries b _ htop hw
        rw [PageMem.value_of_entry (s := s.setEntry b i p) htop hw
          ((hentry _ q).mpr (Or.inr ⟨hwi, heq⟩)), PageMem.value_of_entry htop hw heq]
        rfl
    · rw [PageMem.value_of_le (Nat.not_lt.mp hw), PageMem.value_of_le (Nat.not_lt.mp hw)]
  have hview := hv.stepPhase (x := .locked) hlater ⟨rfl, rfl, rfl, rfl, rfl⟩ hvalue trivial
  refine hi.of_holder hg (by simp [hphase]) hlater ⟨rfl, rfl, rfl, rfl, rfl⟩ rfl rfl hvalue
    ⟨hi.tables.pos, hi.tables.shared, ?_, ?_⟩
    ⟨trivial, hview.top, ?_, hview.pages, hview.looking, hview.seen⟩
  · intro b' j hb' hj
    cases htop.symm.trans hb'
    by_cases hji : j = i
    · exact ⟨p, hp, (hentry j p).mpr (Or.inl ⟨hji, rfl⟩)⟩
    · obtain ⟨q, hq, heq⟩ := hi.tables.entries b j htop hj
      exact ⟨q, hq, (hentry j q).mpr (Or.inr ⟨hji, heq⟩)⟩
  · intro b' j j' q hb' hj hj' hq hq' hq0
    cases htop.symm.trans hb'
    rcases (hentry j q).mp hq with ⟨hji, hqp⟩ | ⟨hji, hq⟩
    · rcases (hentry j' q).mp hq' with ⟨hji', -⟩ | ⟨-, hq'⟩
      · rw [hji, hji']
      · exact absurd (hqp ▸ hq') (hne j' hj')
    · rcases (hentry j' q).mp hq' with ⟨-, hqp⟩ | ⟨-, hq'⟩
      · exact absurd (hqp ▸ hq) (hne j hj)
      · exact hi.tables.inj b j j' q htop hj hj' hq hq' hq0
  · intro j q hjq
    cases hjq
    exact ⟨hlt, hp0, b, htop, (hentry i p).mpr (Or.inl ⟨rfl, rfl⟩)⟩

/-- A slice of the thread's own range is mapped or unmapped. -/
theorem storeSub {r : ℕ × ℕ} {w p page : ℕ} {k : Unit → Prog MapAct α} (hphase : g.phase = .free)
    (hentry : g.entry = some (w / subCount, p)) (hrange : g.range = some r) (hw : Covers r w)
    (h : MapSafe topCount t (k ()) { g with pages := Function.update g.pages w page } Q) :
    MapSafe topCount t (.act (.storeSub (some p) (w % subCount) page) k) g Q := by
  apply Safe.act
  intro s γ choice r' s' hi hg _ hex
  have hv := hi.view t
  rw [hg] at hv
  obtain ⟨hlt, hp0, b, htop, hp⟩ := hv.entry _ _ hentry
  cases hex
  refine ⟨fun h => hp0 (Option.some.inj h), { g with pages := Function.update g.pages w page }, ?_,
    h⟩
  have hlater : Later s (s.setSub p (w % subCount) page) :=
    ⟨fun _ h => h, fun _ _ _ _ h _ => h⟩
  have hself : (s.setSub p (w % subCount) page).value topCount w = page := by
    rw [PageMem.value_of_entry (s := s.setSub p (w % subCount) page) htop hlt hp]
    show Function.update s.sub p _ p (w % subCount) = page
    rw [Function.update_self, Function.update_self]
  -- no other slice is at this place of this submap
  have hother : ∀ v, v ≠ w →
      (s.setSub p (w % subCount) page).value topCount v = s.value topCount v := by
    intro v hvw
    by_cases hvt : v / subCount < topCount
    · obtain ⟨q, hq, heq⟩ := hi.tables.entries b _ htop hvt
      rw [PageMem.value_of_entry (s := s.setSub p (w % subCount) page) htop hvt heq,
        PageMem.value_of_entry htop hvt heq]
      show Function.update s.sub p _ q (v % subCount) = _
      by_cases hqp : q = p
      · have hdiv := hi.tables.inj b _ _ p htop hvt hlt (hqp ▸ heq) hp hp0
        have hmod : v % subCount ≠ w % subCount := fun hmod => hvw (by
          rw [← Nat.div_add_mod v subCount, ← Nat.div_add_mod w subCount, hdiv, hmod])
        rw [hqp, Function.update_self, Function.update_of_ne hmod]
      · rw [Function.update_of_ne hqp]
    · rw [PageMem.value_of_le (Nat.not_lt.mp hvt), PageMem.value_of_le (Nat.not_lt.mp hvt)]
  refine hi.of_step hg hlater ⟨rfl, rfl, rfl, rfl, rfl⟩ rfl ?_ ?_
    ⟨hi.tables.pos, ?_, hi.tables.entries, hi.tables.inj⟩
    (hi.locking.keep hg rfl fun h => h) ⟨?_, hv.top, hv.entry, ?_, hv.looking, hv.seen⟩
  · intro v hv
    exact hother v fun hvw => hv r hrange (hvw ▸ hw)
  · -- a submap that another thread is about to publish is not this one
    intro u _ hphase'
    cases hx : (γ u).phase with
    | fresh j q =>
      rw [hx] at hphase'
      obtain ⟨hj, ⟨b', htop', hz, hne⟩, hq0, hq, hempty⟩ := hphase'
      cases htop.symm.trans htop'
      have hqp : q ≠ p := fun hqp => hne _ hlt (hqp ▸ hp)
      refine ⟨hj, ⟨b, htop, hz, hne⟩, hq0, hq, fun l => ?_⟩
      show Function.update s.sub p _ q l = 0
      rw [Function.update_of_ne hqp]
      exact hempty l
    | _ =>
      rw [hx] at hphase'
      exact hphase'
  · intro i
    show Function.update s.sub p _ 0 i = 0
    rw [Function.update_of_ne hp0.symm]
    exact hi.tables.shared i
  · show Phase.Holds topCount _ g.phase
    rw [hphase]
    trivial
  · intro r' hr' v hv'
    show _ = Function.update g.pages w page v
    by_cases hvw : v = w
    · rw [hvw, hself, Function.update_self]
    · rw [hother v hvw, Function.update_of_ne hvw]
      exact hv.pages r' hr' v hv'

end MapSafe

end MimallocRs
