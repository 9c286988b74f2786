import MimallocRs.Foundations.Chain
import Mathlib.Data.List.Induction

/-!
# Intrusive doubly linked lists

Cells of a type `ι` with a link to the next and one to the previous cell. `Seg next prev p l q` says
that the cells `l` are linked one behind the other, with `p` before the first and `q` behind the
last; `DList next prev head l` that they are all there is behind `head`. The walk from the first cell
visits them in order (`DList.forward`) and the walk from the last one in the opposite order
(`DList.backward`). A cell is pushed in front (`DList.push`) and removed wherever it stands
(`DList.remove`).
-/

namespace Interleave

variable {ι : Type*} {next prev next' prev' : ι → Option ι}

/-- The cells `l` are linked both ways between `p` and `q`. -/
def Seg (next prev : ι → Option ι) : Option ι → List ι → Option ι → Prop
  | _, [], _ => True
  | p, a :: l, q => prev a = p ∧ next a = l.head?.or q ∧ Seg next prev (some a) l q

/-- The cells of a doubly linked list with its first cell `head`. -/
structure DList (next prev : ι → Option ι) (head : Option ι) (l : List ι) : Prop where
  head_eq : head = l.head?
  seg : Seg next prev none l none
  nodup : l.Nodup

namespace Seg

theorem append {p q : Option ι} {l m : List ι} : Seg next prev p (l ++ m) q ↔
    Seg next prev p l (m.head?.or q) ∧ Seg next prev (l.getLast?.or p) m q := by
  induction l generalizing p with
  | nil => simp [Seg]
  | cons a l ih =>
    have hlast : (a :: l).getLast?.or p = l.getLast?.or (some a) := by
      cases l with
      | nil => rfl
      | cons b l => simp [List.getLast?_cons]
    have hhead : (l ++ m).head?.or q = l.head?.or (m.head?.or q) := by
      cases l <;> simp
    rw [List.cons_append, Seg, Seg, ih, hlast, hhead, and_assoc, and_assoc]

/-- Links of other cells do not matter. -/
theorem congr {p q : Option ι} {l : List ι} (h : Seg next prev p l q)
    (hn : ∀ c ∈ l, next' c = next c) (hp : ∀ c ∈ l, prev' c = prev c) :
    Seg next' prev' p l q := by
  induction l generalizing p with
  | nil => trivial
  | cons a l ih =>
    obtain ⟨hpa, hna, hl⟩ := h
    refine ⟨(hp a (by simp)).trans hpa, (hn a (by simp)).trans hna, ih hl ?_ ?_⟩
    · exact fun c hc => hn c (List.mem_cons_of_mem a hc)
    · exact fun c hc => hp c (List.mem_cons_of_mem a hc)

/-- The last cell is linked to another one. -/
theorem setEnd {p q q' : Option ι} {l : List ι} (h : Seg next prev p l q) (hnd : l.Nodup)
    (hn : ∀ c ∈ l, l.getLast? ≠ some c → next' c = next c)
    (hlast : ∀ c, l.getLast? = some c → next' c = q') (hp : ∀ c ∈ l, prev' c = prev c) :
    Seg next' prev' p l q' := by
  induction l generalizing p with
  | nil => trivial
  | cons a l ih =>
    obtain ⟨hpa, hna, hl⟩ := h
    obtain ⟨hal, hnd⟩ := List.nodup_cons.mp hnd
    cases l with
    | nil => exact ⟨(hp a (by simp)).trans hpa, hlast a rfl, trivial⟩
    | cons b l =>
      have hget : (a :: b :: l).getLast? = (b :: l).getLast? := by simp [List.getLast?_cons]
      have hne : (a :: b :: l).getLast? ≠ some a := fun hc => by
        rw [hget] at hc
        exact hal (List.mem_of_getLast? hc)
      refine ⟨(hp a (by simp)).trans hpa, (hn a (by simp) hne).trans hna, ih hl hnd ?_ ?_ ?_⟩
      · exact fun c hc hc' => hn c (List.mem_cons_of_mem a hc) (hget ▸ hc')
      · exact fun c hc => hlast c (hget ▸ hc)
      · exact fun c hc => hp c (List.mem_cons_of_mem a hc)

/-- The first cell is linked to another one. -/
theorem setStart {p p' q : Option ι} {l : List ι} (h : Seg next prev p l q) (hnd : l.Nodup)
    (hp : ∀ c ∈ l, l.head? ≠ some c → prev' c = prev c)
    (hhead : ∀ c, l.head? = some c → prev' c = p') (hn : ∀ c ∈ l, next' c = next c) :
    Seg next' prev' p' l q := by
  cases l with
  | nil => trivial
  | cons a l =>
    obtain ⟨-, hna, hl⟩ := h
    obtain ⟨hal, -⟩ := List.nodup_cons.mp hnd
    refine ⟨hhead a rfl, (hn a (by simp)).trans hna, hl.congr ?_ ?_⟩
    · exact fun c hc => hn c (List.mem_cons_of_mem a hc)
    · intro c hc
      apply hp c (List.mem_cons_of_mem a hc)
      intro heq
      exact hal (Option.some.inj heq ▸ hc)

/-- The links to the next cell lead through the cells in order. -/
theorem forward {p : Option ι} {l : List ι} (h : Seg next prev p l none) :
    Chain next l.head? l := by
  induction l generalizing p with
  | nil => rfl
  | cons a l ih =>
    obtain ⟨-, hna, hl⟩ := h
    refine ⟨rfl, ?_⟩
    rw [hna, Option.or_none]
    exact ih hl

/-- The links to the previous cell lead through the cells in the opposite order. -/
theorem backward {q : Option ι} {l : List ι} (h : Seg next prev none l q) :
    Chain prev l.getLast? l.reverse := by
  induction l using List.reverseRecOn generalizing q with
  | nil => rfl
  | append_singleton l a ih =>
    obtain ⟨hl, hpa, -⟩ := append.mp h
    rw [List.getLast?_concat, List.reverse_concat]
    refine ⟨rfl, ?_⟩
    rw [hpa, Option.or_none]
    exact ih hl

end Seg

namespace DList

variable {head : Option ι} {l : List ι} {a : ι}

/-- The walk from the first cell. -/
theorem forward (h : DList next prev head l) : Chain next head l := by
  rw [h.head_eq]
  exact h.seg.forward

/-- The walk from the last cell. -/
theorem backward (h : DList next prev head l) : Chain prev l.getLast? l.reverse := h.seg.backward

/-- Links of other cells do not matter. -/
theorem congr (h : DList next prev head l) (hn : ∀ c ∈ l, next' c = next c)
    (hp : ∀ c ∈ l, prev' c = prev c) : DList next' prev' head l :=
  ⟨h.head_eq, h.seg.congr hn hp, h.nodup⟩

variable [DecidableEq ι]

/-- A cell is put in front. -/
theorem push (h : DList next prev head l) (ha : a ∉ l) :
    DList (Function.update next a head)
      (head.elim (Function.update prev a none) fun b =>
        Function.update (Function.update prev a none) b (some a))
      (some a) (a :: l) where
  head_eq := rfl
  nodup := List.nodup_cons.mpr ⟨ha, h.nodup⟩
  seg := by
    have hne : ∀ c ∈ l, c ≠ a := fun c hc heq => ha (heq ▸ hc)
    obtain rfl := h.head_eq
    refine ⟨?_, by simp, ?_⟩
    · cases l with
      | nil => simp
      | cons b l => simp [(hne b (by simp)).symm]
    · apply h.seg.setStart h.nodup
      · intro c hc hc'
        cases l with
        | nil => cases hc
        | cons b l =>
          have hcb : c ≠ b := fun heq => hc' (by simp [heq])
          simp [hcb, hne c hc]
      · intro c hc
        rw [hc]
        simp
      · intro c hc
        exact Function.update_of_ne (hne c hc) _ _

/-- A push leaves the cells of other lists alone. -/
theorem push_other (h : DList next prev head l) {c : ι} (hca : c ≠ a) (hc : c ∉ l) :
    Function.update next a head c = next c ∧
      (head.elim (Function.update prev a none) fun b =>
        Function.update (Function.update prev a none) b (some a)) c = prev c := by
  obtain rfl := h.head_eq
  refine ⟨Function.update_of_ne hca _ _, ?_⟩
  cases l with
  | nil => exact Function.update_of_ne hca _ _
  | cons b l =>
    have hcb : c ≠ b := fun heq => hc (by simp [heq])
    simp [hca, hcb]

/-- A removal leaves the cells of other lists alone. -/
theorem remove_other {m : List ι} (h : DList next prev head (l ++ a :: m)) {c : ι}
    (hc : c ∉ l ++ a :: m) :
    Function.update ((prev a).elim next fun p => Function.update next p (next a)) a none c =
        next c ∧
      Function.update ((next a).elim prev fun n => Function.update prev n (prev a)) a none c =
        prev c := by
  obtain ⟨-, hpa, hna, -⟩ := Seg.append.mp h.seg
  simp only [List.mem_append, List.mem_cons, not_or] at hc
  obtain ⟨hcl, hca, hcm⟩ := hc
  rw [Option.or_none] at hpa hna
  rw [Function.update_of_ne hca, Function.update_of_ne hca, hpa, hna]
  constructor
  · cases hlast : l.getLast? with
    | none => rfl
    | some z =>
      have hcz : c ≠ z := fun heq => hcl (heq ▸ List.mem_of_getLast? hlast)
      exact Function.update_of_ne hcz _ _
  · cases hhead : m.head? with
    | none => rfl
    | some z =>
      have hcz : c ≠ z := fun heq => hcm (heq ▸ List.mem_of_head? hhead)
      exact Function.update_of_ne hcz _ _

/-- A cell is removed. -/
theorem remove {m : List ι} (h : DList next prev head (l ++ a :: m)) :
    DList (Function.update ((prev a).elim next fun p => Function.update next p (next a)) a none)
      (Function.update ((next a).elim prev fun n => Function.update prev n (prev a)) a none)
      ((prev a).elim (next a) fun _ => head) (l ++ m) := by
  obtain ⟨hl, hpa, hna, hm⟩ := Seg.append.mp h.seg
  obtain ⟨hndl, hndm, hdis⟩ := List.nodup_append.mp h.nodup
  obtain ⟨ham, hndm⟩ := List.nodup_cons.mp hndm
  have hal : a ∉ l := fun hc => hdis a hc a (by simp) rfl
  have hnela : ∀ c ∈ l, c ≠ a := fun c hc heq => hal (heq ▸ hc)
  have hnema : ∀ c ∈ m, c ≠ a := fun c hc heq => ham (heq ▸ hc)
  have hlm : ∀ c ∈ l, ∀ d ∈ m, c ≠ d := fun c hc d hd => hdis c hc d (List.mem_cons_of_mem a hd)
  rw [Option.or_none] at hpa hna
  constructor
  · rw [hpa, hna]
    cases hlast : l.getLast? with
    | none =>
      rw [List.getLast?_eq_none_iff.mp hlast]
      rfl
    | some z =>
      have hne : l ≠ [] := fun hc => by simp [hc] at hlast
      rw [h.head_eq]
      cases l with
      | nil => exact absurd rfl hne
      | cons b l => rfl
  · rw [Seg.append]
    constructor
    · apply hl.setEnd hndl
      · intro c hc hc'
        rw [Function.update_of_ne (hnela c hc), hpa]
        cases hlast : l.getLast? with
        | none => rfl
        | some z =>
          have hcz : c ≠ z := fun heq => hc' (by rw [hlast, heq])
          exact Function.update_of_ne hcz _ _
      · intro c hc
        have hcl := List.mem_of_getLast? hc
        rw [Function.update_of_ne (hnela c hcl), hpa, hc, hna, Option.or_none]
        exact Function.update_self _ _ _
      · intro c hc
        rw [Function.update_of_ne (hnela c hc), hna]
        cases hhead : m.head? with
        | none => rfl
        | some z =>
          exact Function.update_of_ne (hlm c hc z (List.mem_of_head? hhead)) _ _
    · apply hm.setStart hndm
      · intro c hc hc'
        rw [Function.update_of_ne (hnema c hc), hna]
        cases hhead : m.head? with
        | none => rfl
        | some z =>
          have hcz : c ≠ z := fun heq => hc' (by rw [hhead, heq])
          exact Function.update_of_ne hcz _ _
      · intro c hc
        have hcm := List.mem_of_head? hc
        rw [Function.update_of_ne (hnema c hcm), hna, hc, hpa, Option.or_none]
        exact Function.update_self _ _ _
      · intro c hc
        rw [Function.update_of_ne (hnema c hc), hpa]
        cases hlast : l.getLast? with
        | none => rfl
        | some z =>
          exact Function.update_of_ne (hlm z (List.mem_of_getLast? hlast) c hc).symm _ _
  · exact List.nodup_append.mpr ⟨hndl, hndm, hlm⟩

end DList

end Interleave
