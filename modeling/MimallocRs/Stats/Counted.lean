import MimallocRs.Stats.Shared
import MimallocRs.Foundations.Interleave.Outline
import MimallocRs.Foundations.Interleave.Serial
import MimallocRs.Foundations.Tally

/-!
# The statistics are exact

However the calls that record allocations and frees interleave, no update of a counter is lost: when
none is running, `ALLOC_COUNT`, `FREE_COUNT` and `PAGES_CREATED` are the numbers of such calls (in 64
bits), `CURRENT_BYTES` is the sum of the sizes of the blocks that have not been freed, neither
addition nor subtraction has ever saturated, and `PEAK_BYTES` is the highest value that
`CURRENT_BYTES` has had (`stats_exact`).

The ghost of a thread says what its running call has added to the counters, and the value that it is
to raise the high-water mark to. The invariant adds the ghosts up (`Tally`).
-/

namespace MimallocRs

open Interleave Prog

/-- What a thread knows of the call that it runs. -/
structure StatsGhost where
  /-- The counter in which the call has counted itself. -/
  counted : Option Counter
  /-- The size of the block whose allocation or free it records. -/
  room : ℕ
  /-- How much of it is in `CURRENT_BYTES`. -/
  counting : ℕ
  /-- What it is to raise `PEAK_BYTES` to. -/
  reach : Option ℕ
  /-- A value of `PEAK_BYTES` that it has seen. -/
  seen : ℕ

/-- How often the call has counted itself in a counter. -/
def StatsGhost.times (g : StatsGhost) (c : Counter) : ℕ := if g.counted = some c then 1 else 0

/-- The counter counts calls. -/
def Counter.Counts : Counter → Prop
  | .allocCount | .freeCount | .pagesCreated => True
  | .currentBytes | .peakBytes => False

/-- The thread runs no call. -/
structure StatsGhost.Idle (g : StatsGhost) : Prop where
  counted : g.counted = none
  room : g.room = 0
  counting : g.counting = 0
  reach : g.reach = none

variable {Tid : Type} {s s' : StatsMem} {γ : Tid → StatsGhost} {t : Tid} {c : Counter} {size v : ℕ}

/-- A counter of calls is not one of the counters of bytes. -/
theorem StatsMem.set_of_counts {d e : Counter} (hd : d.Counts) (he : ¬ e.Counts) :
    (s.set e v).value d = s.value d := by
  refine Function.update_of_ne ?_ ..
  rintro rfl
  exact he hd

/-- What the counters are, in terms of the history and the running calls. -/
structure StatsInv (s : StatsMem) (γ : Tid → StatsGhost) : Prop where
  counts : ∀ c, c.Counts → ∃ n, Tally (fun t => (γ t).times c) n ∧
    s.value c = (s.done c + n) % usizeRange
  room : ∃ n, Tally (fun t => (γ t).room) n ∧ s.bytes = s.returned.sum + n
  current : ∃ n, Tally (fun t => (γ t).counting) n ∧ s.value .currentBytes = s.returned.sum + n
  fits : s.bytes < usizeRange
  within : ∀ t, (γ t).counting ≤ (γ t).room
  seen : ∀ t, (γ t).seen ≤ s.value .peakBytes
  reach : ∀ t v, (γ t).reach = some v → v ≤ s.highest
  current_le : s.value .currentBytes ≤ s.highest
  peak_le : s.value .peakBytes ≤ s.highest
  peak : s.highest ≤ s.value .peakBytes ∨ ∃ t, (γ t).reach = some s.highest

namespace StatsInv

theorem init (h : ∀ t, (γ t).Idle ∧ (γ t).seen = 0) : StatsInv .init γ where
  counts c _ := ⟨0, Tally.zero.congr fun t => by rw [StatsGhost.times, (h t).1.counted]; rfl, rfl⟩
  room := ⟨0, Tally.zero.congr fun t => (h t).1.room, rfl⟩
  current := ⟨0, Tally.zero.congr fun t => (h t).1.counting, rfl⟩
  fits := by decide
  within t := ((h t).1.counting.trans (h t).1.room.symm).le
  seen t := (h t).2.le
  reach t v hv := by
    rw [(h t).1.reach] at hv
    cases hv
  current_le := le_rfl
  peak_le := le_rfl
  peak := Or.inl le_rfl

/-- The blocks that are in `CURRENT_BYTES` are among those that have room. -/
theorem current_le_bytes (h : StatsInv s γ) : s.value .currentBytes ≤ s.bytes := by
  obtain ⟨n, hn, hbytes⟩ := h.room
  obtain ⟨k, hk, hcurrent⟩ := h.current
  have := hk.mono hn h.within
  omega

/-- A counter of calls is as it was after a step that changes no such counter. -/
theorem counts_same {d : Counter} {g : StatsGhost} {n : ℕ} (hg : g.counted = (γ t).counted)
    (hvalue : s'.value d = s.value d) (hdone : s'.done d = s.done d)
    (hv : s.value d = (s.done d + n) % usizeRange) (hle : (γ t).times d ≤ n) :
    s'.value d = (s'.done d + (n - (γ t).times d + g.times d)) % usizeRange := by
  have htimes : g.times d = (γ t).times d := by
    rw [StatsGhost.times, StatsGhost.times, hg]
  rw [hvalue, hdone, htimes, Nat.sub_add_cancel hle, hv]

/-- The high-water mark is still reached by the call that had reached it. -/
theorem carry_same {g : StatsGhost} (hg : g.reach = (γ t).reach) (hhigh : s'.highest = s.highest) :
    s'.highest ≤ s'.value .peakBytes ∨ g.reach = some s'.highest ∨
      s'.highest = s.highest ∧ (γ t).reach ≠ some s.highest := by
  rw [hg, hhigh]
  by_cases hr : (γ t).reach = some s.highest
  · exact Or.inr (Or.inl hr)
  · exact Or.inr (Or.inr ⟨rfl, hr⟩)

variable [DecidableEq Tid]

/-- **What a change of the state and of one ghost leaves to show.** -/
theorem of_step (h : StatsInv s γ) {g : StatsGhost}
    (hcounts : ∀ c, c.Counts → ∀ n, s.value c = (s.done c + n) % usizeRange →
      (γ t).times c ≤ n → s'.value c = (s'.done c + (n - (γ t).times c + g.times c)) % usizeRange)
    (hroom : ∀ n, s.bytes = s.returned.sum + n → (γ t).room ≤ n →
      s'.bytes = s'.returned.sum + (n - (γ t).room + g.room))
    (hcurrent : ∀ n, s.value .currentBytes = s.returned.sum + n → (γ t).counting ≤ n →
      s'.value .currentBytes = s'.returned.sum + (n - (γ t).counting + g.counting))
    (hfits : s'.bytes < usizeRange) (hwithin : g.counting ≤ g.room)
    (hmark : s.value .peakBytes ≤ s'.value .peakBytes) (hseen : g.seen ≤ s'.value .peakBytes)
    (hhigh : s.highest ≤ s'.highest) (hreach : ∀ v, g.reach = some v → v ≤ s'.highest)
    (hle : s'.value .currentBytes ≤ s'.highest) (hpeak : s'.value .peakBytes ≤ s'.highest)
    (hcarry : s'.highest ≤ s'.value .peakBytes ∨ g.reach = some s'.highest ∨
      s'.highest = s.highest ∧ (γ t).reach ≠ some s.highest) :
    StatsInv s' (Function.update γ t g) where
  counts c hc := by
    obtain ⟨n, hn, hv⟩ := h.counts c hc
    exact ⟨_, hn.update_of (r := fun g : StatsGhost => g.times c) t g, hcounts c hc n hv (hn.le t)⟩
  room := by
    obtain ⟨n, hn, hv⟩ := h.room
    exact ⟨_, hn.update_of t g, hroom n hv (hn.le t)⟩
  current := by
    obtain ⟨n, hn, hv⟩ := h.current
    exact ⟨_, hn.update_of t g, hcurrent n hv (hn.le t)⟩
  fits := hfits
  within := (Function.forall_update_iff γ (p := fun _ g => g.counting ≤ g.room)).mpr
    ⟨hwithin, fun u _ => h.within u⟩
  seen := (Function.forall_update_iff γ (p := fun _ g => g.seen ≤ s'.value .peakBytes)).mpr
    ⟨hseen, fun u _ => (h.seen u).trans hmark⟩
  reach := (Function.forall_update_iff γ
    (p := fun _ g => ∀ v, g.reach = some v → v ≤ s'.highest)).mpr
      ⟨hreach, fun u _ v hv => (h.reach u v hv).trans hhigh⟩
  current_le := hle
  peak_le := hpeak
  peak := by
    rcases hcarry with hc | hc | ⟨heq, hne⟩
    · exact Or.inl hc
    · exact Or.inr ⟨t, by rwa [Function.update_self]⟩
    · rcases h.peak with hp | ⟨u, hu⟩
      · exact Or.inl (heq ▸ hp.trans hmark)
      · refine Or.inr ⟨u, ?_⟩
        rw [Function.update_of_ne, heq, hu]
        rintro rfl
        exact hne hu

/-- A call counts itself. -/
theorem count (h : StatsInv s γ) (hc : c.Counts) (hcounted : (γ t).counted = none) :
    StatsInv (s.set c ((s.value c + 1) % usizeRange))
      (Function.update γ t { γ t with counted := some c }) := by
  have hcur : Counter.currentBytes ≠ c := by
    rintro rfl
    exact hc
  have hpeak : Counter.peakBytes ≠ c := by
    rintro rfl
    exact hc
  have hhigh : (s.set c ((s.value c + 1) % usizeRange)).highest = s.highest := if_neg hcur.symm
  have hcurrent : (s.set c ((s.value c + 1) % usizeRange)).value .currentBytes =
      s.value .currentBytes := Function.update_of_ne hcur ..
  have hmark : (s.set c ((s.value c + 1) % usizeRange)).value .peakBytes =
      s.value .peakBytes := Function.update_of_ne hpeak ..
  apply h.of_step
  · intro d _ n hv hle
    show Function.update s.value c ((s.value c + 1) % usizeRange) d = (s.done d + _) % usizeRange
    simp only [StatsGhost.times, hcounted, Option.some.injEq]
    by_cases hdc : d = c
    · subst hdc
      simp [hv, Nat.add_assoc]
    · rw [Function.update_of_ne hdc, if_neg (Ne.symm hdc), hv]
      rfl
  · exact fun n hv hle => by rw [Nat.sub_add_cancel hle]; exact hv
  · exact fun n hv hle => by rw [Nat.sub_add_cancel hle, hcurrent]; exact hv
  · exact h.fits
  · exact h.within t
  · exact hmark.ge
  · exact hmark.symm ▸ h.seen t
  · exact hhigh.ge
  · exact fun v hv => hhigh.symm ▸ h.reach t v hv
  · rw [hcurrent, hhigh]
    exact h.current_le
  · rw [hmark, hhigh]
    exact h.peak_le
  · exact carry_same rfl hhigh

/-- A call adds the size of its block to `CURRENT_BYTES`, which does not overflow. -/
theorem add (h : StatsInv s γ) (hroom : (γ t).room = size) (hcounting : (γ t).counting = 0)
    (hreach : (γ t).reach = none) :
    s.value .currentBytes + size < usizeRange ∧
    StatsInv (s.set .currentBytes (s.value .currentBytes + size)) (Function.update γ t { γ t with
      counting := size, reach := some (s.value .currentBytes + size) }) := by
  have hfits : s.value .currentBytes + size < usizeRange := by
    obtain ⟨n, hn, hbytes⟩ := h.room
    obtain ⟨k, hk, hcurrent⟩ := h.current
    -- with its block, `CURRENT_BYTES` is still at most what has room
    have hle := (hk.update t size).mono hn fun u => by
      by_cases hu : u = t
      · subst hu
        rw [Function.update_self, hroom]
      · rw [Function.update_of_ne hu]
        exact h.within u
    have := h.fits
    omega
  refine ⟨hfits, ?_⟩
  have hhigh : (s.set .currentBytes (s.value .currentBytes + size)).highest =
      max s.highest (s.value .currentBytes + size) := rfl
  apply h.of_step
  · intro d hd n hv hle
    exact counts_same rfl (StatsMem.set_of_counts hd id) rfl hv hle
  · exact fun n hv hle => by rw [Nat.sub_add_cancel hle]; exact hv
  · intro n hv hle
    show s.value .currentBytes + size = s.returned.sum + (n - (γ t).counting + size)
    omega
  · exact h.fits
  · exact hroom.ge
  · exact le_rfl
  · exact h.seen t
  · rw [hhigh]
    exact le_max_left ..
  · intro v hv
    cases hv
    rw [hhigh]
    exact le_max_right ..
  · rw [hhigh]
    exact le_max_right ..
  · rw [hhigh]
    exact h.peak_le.trans (le_max_left ..)
  · rw [hhigh]
    rcases le_total s.highest (s.value .currentBytes + size) with hle | hle
    · rw [max_eq_right hle]
      exact Or.inr (Or.inl rfl)
    · rw [max_eq_left hle]
      refine Or.inr (Or.inr ⟨rfl, ?_⟩)
      rw [hreach]
      exact fun hc => by cases hc

/-- A call raises the high-water mark. -/
theorem raise {cur : ℕ} (h : StatsInv s γ) (hreach : (γ t).reach = some cur)
    (hlt : s.value .peakBytes ≤ cur) :
    StatsInv (s.set .peakBytes cur) (Function.update γ t { γ t with seen := cur }) := by
  apply h.of_step
  · intro d hd n hv hle
    exact counts_same rfl (StatsMem.set_of_counts hd id) rfl hv hle
  · exact fun n hv hle => by rw [Nat.sub_add_cancel hle]; exact hv
  · exact fun n hv hle => by rw [Nat.sub_add_cancel hle]; exact hv
  · exact h.fits
  · exact h.within t
  · exact hlt
  · exact le_rfl
  · exact le_rfl
  · exact h.reach t
  · exact h.current_le
  · exact h.reach t cur hreach
  · exact carry_same rfl rfl

/-- A call subtracts the size of its block from `CURRENT_BYTES`, which is not below it. -/
theorem sub (h : StatsInv s γ) (hcounting : (γ t).counting = size) :
    size ≤ s.value .currentBytes ∧
    StatsInv (s.set .currentBytes (s.value .currentBytes - size))
      (Function.update γ t { γ t with counting := 0 }) := by
  obtain ⟨k, hk, hcurrent⟩ := h.current
  have hle := hk.le t
  have hsize : size ≤ s.value .currentBytes := by omega
  refine ⟨hsize, ?_⟩
  have hhigh : (s.set .currentBytes (s.value .currentBytes - size)).highest = s.highest := by
    have := h.current_le
    show max s.highest (s.value .currentBytes - size) = s.highest
    omega
  apply h.of_step
  · intro d hd n hv hle
    exact counts_same rfl (StatsMem.set_of_counts hd id) rfl hv hle
  · exact fun n hv hle => by rw [Nat.sub_add_cancel hle]; exact hv
  · intro n hv hle
    show s.value .currentBytes - size = s.returned.sum + (n - (γ t).counting + 0)
    omega
  · exact h.fits
  · exact Nat.zero_le _
  · exact le_rfl
  · exact h.seen t
  · exact hhigh.ge
  · exact fun v hv => hhigh.symm ▸ h.reach t v hv
  · rw [hhigh]
    exact (Nat.sub_le ..).trans h.current_le
  · rw [hhigh]
    exact h.peak_le
  · exact carry_same rfl hhigh

/-- A call has seen a value of `PEAK_BYTES`. -/
theorem see (h : StatsInv s γ) :
    StatsInv s (Function.update γ t { γ t with seen := s.value .peakBytes }) := by
  apply h.of_step
  · exact fun d _ n hv hle => counts_same rfl rfl rfl hv hle
  · exact fun n hv hle => by rw [Nat.sub_add_cancel hle]; exact hv
  · exact fun n hv hle => by rw [Nat.sub_add_cancel hle]; exact hv
  · exact h.fits
  · exact h.within t
  · exact le_rfl
  · exact le_rfl
  · exact le_rfl
  · exact h.reach t
  · exact h.current_le
  · exact h.peak_le
  · exact carry_same rfl rfl

/-- A call that has counted itself returns: what it has added stays, and its own part ends. -/
theorem finish (h : StatsInv s γ) (hcounted : (γ t).counted = some c)
    (hreach : ∀ v, (γ t).reach = some v → v ≤ (γ t).seen) {returned : List ℕ} {bytes : ℕ}
    (hroom : ∀ n, s.bytes = s.returned.sum + n → (γ t).room ≤ n →
      bytes = returned.sum + (n - (γ t).room))
    (hcurrent : ∀ n, s.value .currentBytes = s.returned.sum + n → (γ t).counting ≤ n →
      s.value .currentBytes = returned.sum + (n - (γ t).counting))
    (hfits : bytes < usizeRange) :
    StatsInv ({ s with returned, bytes }.count c)
      (Function.update γ t ⟨none, 0, 0, none, (γ t).seen⟩) := by
  apply h.of_step
  · intro d _ n hv hle
    show s.value d = (Function.update s.done c (s.done c + 1) d + _) % usizeRange
    rw [StatsGhost.times, hcounted] at hle ⊢
    by_cases hdc : d = c
    · subst hdc
      rw [if_pos rfl] at hle ⊢
      rw [Function.update_self, hv]
      apply congrArg (· % usizeRange)
      show s.done d + n = s.done d + 1 + (n - 1 + 0)
      omega
    · rw [Function.update_of_ne hdc, hv, if_neg (by simpa using Ne.symm hdc)]
      rfl
  · exact hroom
  · exact hcurrent
  · exact hfits
  · exact le_rfl
  · exact le_rfl
  · exact h.seen t
  · exact le_rfl
  · exact fun v hv => by cases hv
  · exact h.current_le
  · exact h.peak_le
  · by_cases hr : (γ t).reach = some s.highest
    · exact Or.inl ((hreach _ hr).trans (h.seen t))
    · exact Or.inr (Or.inr ⟨rfl, hr⟩)

end StatsInv

/-! ## The programs -/

/-- The invariant. -/
def statsOutline (Tid : Type) : Outline StatsAct Tid StatsMem StatsGhost where
  inv := StatsInv

/-- A program of a thread is safe. -/
abbrev StatsSafe {α : Type} [DecidableEq Tid] (t : Tid) (p : Prog StatsAct α) (g : StatsGhost)
    (Q : α → StatsGhost → Prop) : Prop :=
  Safe (statsSystem Tid).toMachine (statsOutline Tid) t p g Q

/-- What a call has done when it returns. -/
structure StatsGhost.Done (g : StatsGhost) (c : Counter) (room counting : ℕ) : Prop where
  counted : g.counted = some c
  room : g.room = room
  counting : g.counting = counting
  reach : ∀ v, g.reach = some v → v ≤ g.seen

namespace StatsSafe

variable [DecidableEq Tid] {α : Type} {g : StatsGhost}

/-- A call counts itself. -/
theorem count {k : ℕ → Prog StatsAct α} {Q : α → StatsGhost → Prop} (hc : c.Counts)
    (hg : g.counted = none) (hk : ∀ b, StatsSafe t (k b) { g with counted := some c } Q) :
    StatsSafe t (.act (.fetchAdd c 1) k) g Q := by
  apply Safe.act
  rintro s γ choice b s' hi rfl - he
  cases he
  exact ⟨trivial, _, hi.count hc hg, hk _⟩

/-- A load changes nothing, and it may show the high-water mark. -/
theorem load {k : ℕ → Prog StatsAct α} {Q : α → StatsGhost → Prop}
    (hk : ∀ b, StatsSafe t (k b) g Q) : StatsSafe t (.act (.load c) k) g Q := by
  apply Safe.act
  rintro s γ choice b s' hi rfl - he
  cases he
  refine ⟨trivial, γ t, ?_, hk _⟩
  rw [Function.update_eq_self]
  exact hi

/-- The loop that raises the high-water mark ends when it has seen a value that is high enough. -/
theorem raisePeak {cur peak : ℕ} {Q : Unit → StatsGhost → Prop} (hreach : g.reach = some cur)
    (hseen : g.seen = peak) (hQ : ∀ seen, cur ≤ seen → Q () { g with seen }) :
    StatsSafe t (Stats.raisePeak cur peak) g Q := by
  apply Safe.loop (J := fun peak g' => g' = { g with seen := peak })
  · rintro peak _ rfl
    by_cases hlt : peak < cur
    · rw [if_pos hlt]
      apply Safe.act
      rintro s γ choice b s' hi hg - he
      have hreach' : (γ t).reach = some cur := by rw [hg, hreach]
      simp only [statsSystem, StatsMem.exec] at he
      split at he
      · next hv =>
        cases he
        refine ⟨trivial, _, hi.raise hreach' (hv.1.symm ▸ hlt.le), ?_⟩
        rw [hg]
        exact Safe.ret (Safe.ret (hQ cur le_rfl))
      · cases he
        refine ⟨trivial, _, hi.see, ?_⟩
        rw [hg]
        exact Safe.ret rfl
    · rw [if_neg hlt]
      exact Safe.ret (Safe.ret (hQ peak (not_lt.mp hlt)))
  · rw [← hseen]

/-- **`on_alloc`.** -/
theorem onAlloc (hg : g.Idle) :
    StatsSafe t (Stats.onAlloc size) { g with room := size } fun _ g' =>
      g'.Done .allocCount size size := by
  apply count (c := .allocCount) (g := { g with room := size }) (by trivial) hg.counted
  intro _
  apply Safe.act
  rintro s γ choice old s' hi hγ - he
  have hroom : (γ t).room = size := by rw [hγ]
  obtain ⟨hfits, hadd⟩ := hi.add hroom (by rw [hγ]; exact hg.counting) (by rw [hγ]; exact hg.reach)
  cases he
  rw [← Nat.mod_eq_of_lt hfits] at hadd
  refine ⟨trivial, _, hadd, ?_⟩
  rw [hγ, Nat.mod_eq_of_lt hfits]
  have hcur := min_eq_left (Nat.le_sub_one_of_lt hfits)
  apply Safe.act
  rintro s' γ' choice' peak s'' hi' hγ' - he'
  cases he'
  refine ⟨trivial, _, hi'.see, ?_⟩
  rw [hγ']
  apply raisePeak
  · exact congrArg some hcur.symm
  · rfl
  · intro seen hle
    refine ⟨rfl, rfl, rfl, ?_⟩
    intro v hv
    cases hv
    exact hcur.ge.trans hle

/-- **`on_free`.** -/
theorem onFree (hg : g.Idle) :
    StatsSafe t (Stats.onFree size) { g with room := size, counting := size } fun _ g' =>
      g'.Done .freeCount size 0 := by
  apply count (c := .freeCount) (g := { g with room := size, counting := size }) (by trivial)
    hg.counted
  intro _
  apply load
  intro b
  apply Safe.loop (J := fun _ g' => g' =
    { g with counted := some .freeCount, room := size, counting := size }) ?_ rfl
  rintro b _ rfl
  apply Safe.act
  rintro s γ choice r s' hi hγ - he
  simp only [statsSystem, StatsMem.exec] at he
  split at he
  · next hv =>
    have hcounting : (γ t).counting = size := by rw [hγ]
    obtain ⟨-, hsub⟩ := hi.sub hcounting
    rw [hv.1] at hsub
    cases he
    refine ⟨trivial, _, hsub, ?_⟩
    rw [hγ]
    refine Safe.ret (Safe.ret ⟨rfl, rfl, rfl, ?_⟩)
    intro v hv
    rw [hg.reach] at hv
    cases hv
  · cases he
    refine ⟨trivial, γ t, ?_, ?_⟩
    · rw [Function.update_eq_self]
      exact hi
    · rw [hγ]
      exact Safe.ret rfl

/-- **`on_page_created`.** -/
theorem onPageCreated (hg : g.Idle) :
    StatsSafe t Stats.onPageCreated g fun _ g' => g'.Done .pagesCreated 0 0 := by
  apply count (c := .pagesCreated) (by trivial) hg.counted
  intro _
  refine Safe.ret ⟨rfl, hg.room, hg.counting, ?_⟩
  intro v hv
  rw [hg.reach] at hv
  cases hv

/-- **`snapshot`.** -/
theorem snapshot (hg : g.Idle) : StatsSafe t Stats.snapshot g fun _ g' => g'.Idle := by
  repeat (apply load; intro _)
  exact Safe.ret hg

end StatsSafe

/-! ## The runs -/

/-- What a call has done when it returns. -/
def StatsOp.Post : StatsOp → StatsGhost → Prop
  | .alloc size, g => g.Done .allocCount size size
  | .free size, g => g.Done .freeCount size 0
  | .pageCreated, g => g.Done .pagesCreated 0 0
  | .snapshot, g => g.Idle

namespace StatsInv

variable [DecidableEq Tid] {o : StatsOp}

/-- A call makes room for a block, or takes over one that has been returned. -/
theorem makeRoom (h : StatsInv s γ) (hg : (γ t).Idle) {returned : List ℕ}
    {bytes room counting : ℕ}
    (hroom : ∀ n, s.bytes = s.returned.sum + n → bytes = returned.sum + (n + room))
    (hcurrent : ∀ n, s.value .currentBytes = s.returned.sum + n →
      s.value .currentBytes = returned.sum + (n + counting))
    (hfits : bytes < usizeRange) (hle : counting ≤ room) :
    StatsInv { s with returned, bytes } (Function.update γ t { γ t with room, counting }) := by
  apply h.of_step
  · exact fun d _ n hv hle => counts_same rfl rfl rfl hv hle
  · intro n hv _
    rw [hg.room]
    exact hroom n hv
  · intro n hv _
    rw [hg.counting]
    exact hcurrent n hv
  · exact hfits
  · exact hle
  · exact le_rfl
  · exact h.seen t
  · exact le_rfl
  · exact h.reach t
  · exact h.current_le
  · exact h.peak_le
  · exact carry_same rfl rfl

/-- A call starts. -/
theorem start (h : StatsInv s γ) (hg : (γ t).Idle) (hs : (statsSystem Tid).start t o s = some s') :
    ∃ g, StatsInv s' (Function.update γ t g) ∧
      StatsSafe t ((statsSystem Tid).prog t o) g fun _ g' => o.Post g' := by
  cases o with
  | alloc size =>
    obtain ⟨hfits, hs⟩ := Option.ite_none_right_eq_some.mp hs
    cases hs
    refine ⟨{ γ t with room := size }, h.makeRoom hg ?_ ?_ hfits ?_, StatsSafe.onAlloc hg⟩
    · intro n hv
      omega
    · intro n hv
      rw [hg.counting]
      exact hv
    · rw [hg.counting]
      exact Nat.zero_le _
  | free size =>
    obtain ⟨hmem, hs⟩ := Option.ite_none_right_eq_some.mp hs
    cases hs
    have hsum : size + (s.returned.erase size).sum = s.returned.sum := List.sum_erase hmem
    refine ⟨{ γ t with room := size, counting := size }, h.makeRoom hg ?_ ?_ h.fits le_rfl, ?_⟩
    · intro n hv
      omega
    · intro n hv
      omega
    · exact StatsSafe.onFree hg
  | pageCreated =>
    cases hs
    refine ⟨γ t, ?_, StatsSafe.onPageCreated hg⟩
    rw [Function.update_eq_self]
    exact h
  | snapshot =>
    cases hs
    refine ⟨γ t, ?_, StatsSafe.snapshot hg⟩
    rw [Function.update_eq_self]
    exact h

/-- A call returns. -/
theorem returns (h : StatsInv s γ) (hpost : o.Post (γ t)) (r : o.Res) :
    ∃ g, StatsInv ((statsSystem Tid).finish t o r s) (Function.update γ t g) ∧ g.Idle := by
  cases o with
  | alloc size =>
    refine ⟨_, h.finish hpost.counted hpost.reach ?_ ?_ h.fits, ⟨rfl, rfl, rfl, rfl⟩⟩
    · intro n hv hle
      rw [hpost.room] at hle ⊢
      rw [List.sum_cons]
      omega
    · intro n hv hle
      rw [hpost.counting] at hle ⊢
      rw [List.sum_cons]
      omega
  | free size =>
    refine ⟨_, h.finish hpost.counted hpost.reach ?_ ?_ ((Nat.sub_le ..).trans_lt h.fits),
      ⟨rfl, rfl, rfl, rfl⟩⟩
    · intro n hv hle
      rw [hpost.room] at hle ⊢
      omega
    · intro n hv hle
      rw [hpost.counting]
      exact hv
  | pageCreated =>
    refine ⟨_, h.finish hpost.counted hpost.reach ?_ ?_ h.fits, ⟨rfl, rfl, rfl, rfl⟩⟩
    · intro n hv hle
      rw [hpost.room]
      exact hv
    · intro n hv hle
      rw [hpost.counting]
      exact hv
  | snapshot =>
    refine ⟨γ t, ?_, hpost⟩
    rw [Function.update_eq_self]
    exact h

end StatsInv

/-- The invariant in every reachable configuration. -/
theorem StatsInv.reachable [DecidableEq Tid]
    {c : Config StatsAct Tid StatsOp StatsOp.Res StatsMem}
    (h : (statsSystem Tid).Reachable (· = .init) System.anyMove c) :
    ∃ γ, StatsInv c.mem γ ∧ ∀ t, (statsOutline Tid).Thread (statsSystem Tid).toMachine
      (fun _ g => g.Idle) (fun _ o _ g => o.Post g) t (γ t) (c.thread t) := by
  refine Outline.reachable (O := statsOutline Tid) ?_ ?_ ?_ ?_ h
  · rintro _ rfl
    exact ⟨fun _ => ⟨none, 0, 0, none, 0⟩, StatsInv.init fun _ => ⟨⟨rfl, rfl, rfl, rfl⟩, rfl⟩,
      fun _ => ⟨rfl, rfl, rfl, rfl⟩⟩
  · exact fun t o s s' γ hi hg hs => hi.start hg hs
  · exact fun t o r s γ hi hpost => hi.returns hpost r
  · exact fun _ _ _ _ _ _ _ _ _ _ _ => trivial

/-- **The statistics are exact.** However the calls of any number of threads interleave,
`CURRENT_BYTES` is never less than what is allocated and not being freed nor more than what there is
room for, and `PEAK_BYTES` is never more than it has been at some time; while no call is running,
no update has been lost. -/
theorem stats_exact [DecidableEq Tid] {c : Config StatsAct Tid StatsOp StatsOp.Res StatsMem}
    (h : (statsSystem Tid).Reachable (· = .init) System.anyMove c) :
    c.mem.returned.sum ≤ c.mem.value .currentBytes ∧ c.mem.value .currentBytes ≤ c.mem.bytes ∧
    c.mem.value .peakBytes ≤ c.mem.highest ∧
    (c.Quiescent → c.mem.value .currentBytes = c.mem.returned.sum ∧
      c.mem.value .peakBytes = c.mem.highest ∧
      ∀ k, k.Counts → c.mem.value k = c.mem.done k % usizeRange) := by
  obtain ⟨γ, hi, hth⟩ := StatsInv.reachable h
  have hidle : ∀ t, c.thread t = none → (γ t).Idle := by
    intro t ht
    have hthread := hth t
    rw [ht] at hthread
    exact hthread
  obtain ⟨n, hn, hcurrent⟩ := hi.current
  refine ⟨by omega, hi.current_le_bytes, hi.peak_le, fun hq => ⟨?_, ?_, fun k hk => ?_⟩⟩
  · have hzero := hn.eq_zero fun t => (hidle t (hq t)).counting
    omega
  · rcases hi.peak with hle | ⟨t, ht⟩
    · exact le_antisymm hi.peak_le hle
    · rw [(hidle t (hq t)).reach] at ht
      cases ht
  · obtain ⟨m, hm, hv⟩ := hi.counts k hk
    have hzero := hm.eq_zero fun t => by
      rw [StatsGhost.times, (hidle t (hq t)).counted]
      rfl
    rw [hv, hzero]
    rfl

/-- Two threads allocate at the same time, and one block is freed. -/
theorem stats_exact_two : ∃ c : Config StatsAct Bool StatsOp StatsOp.Res StatsMem,
    c.Quiescent ∧ c.mem.returned = [24] ∧ c.mem.value .currentBytes = 24 ∧
    c.mem.value .peakBytes = c.mem.highest := by
  have hrun : ((statsSystem Bool).run ([.start false (.alloc 16), .start true (.alloc 24),
      .step false 0, .step true 0, .step true 0, .step false 0, .step false 0, .step true 0,
      .step false 0, .step false 0, .step true 0, .step true 0, .step true 0, .finish true,
      .finish false] ++ Move.call true (.free 16) 4 0) ⟨.init, fun _ => none⟩).any
      (fun c => (c.thread false).isNone && (c.thread true).isNone && c.mem.returned == [24]) =
      true := by
    decide +kernel
  obtain ⟨c, hc, htest⟩ := System.exists_run hrun
  simp only [Bool.and_eq_true, Option.isNone_iff_eq_none, beq_iff_eq] at htest
  have hq : c.Quiescent := by
    intro t
    cases t with
    | false => exact htest.1.1
    | true => exact htest.1.2
  have hreach : (statsSystem Bool).Reachable (· = .init) System.anyMove c :=
    System.reachable_of_run (by rfl) hc
  obtain ⟨-, -, -, hquiet⟩ := stats_exact hreach
  obtain ⟨hcurrent, hpeak, -⟩ := hquiet hq
  refine ⟨c, hq, htest.2, ?_, hpeak⟩
  rw [hcurrent, htest.2]
  rfl

end MimallocRs
