import MimallocRs.Client.Invariant

/-!
# What the events of a page do to its blocks

What the events of a page do to the bytes and the pointers: `Effect.of_page`. From it a rule for one
event of the page (`ClientSafe.pageAct`), and one for a whole program of the page whose events leave
alone what their thread knows (`ClientSafe.onPage`).
-/

namespace MimallocRs

open Interleave

variable {ar : Area} {t : ℕ} {α β : Type}

/-! ## Links -/

theorem Area.writeLinks_of_not {links : Blk → Bool} {next : Blk → Option Blk}
    {bytes : ℕ → BitVec 8} {a : ℕ} {b : Blk} (ha : ar.Inside a b) (hb : links b = false) :
    ar.writeLinks links next bytes a = bytes a := by
  unfold Area.writeLinks
  dsimp only
  rw [ha.blockOf_eq, if_neg]
  rintro ⟨-, -, h⟩
  rw [hb] at h
  cases h

theorem Area.writeLinks_none {links : Blk → Bool} {next : Blk → Option Blk}
    {bytes : ℕ → BitVec 8} (h : ∀ b, links b = false) :
    ar.writeLinks links next bytes = bytes := by
  funext a
  simp [Area.writeLinks, h]

theorem Area.ZeroFrom.writeLinks {links : Blk → Bool} {next : Blk → Option Blk}
    {bytes : ℕ → BitVec 8} {b : Blk} {k : ℕ} (hk : miIntptrSize ≤ k)
    (h : ar.ZeroFrom bytes k b) : ar.ZeroFrom (ar.writeLinks links next bytes) k b := by
  intro a ha ha'
  have hin : ar.Inside a b := ⟨by omega, ha'⟩
  unfold Area.writeLinks
  dsimp only
  rw [hin.blockOf_eq, if_neg]
  · exact h a ha ha'
  · rintro ⟨-, hlt, -⟩
    omega

section Links

variable {s : Shared ℕ} {fr lo : List Blk} {e : PageAct β} {b : Blk}

/-- Links are not written to live blocks. -/
theorem Partition.not_live_of_links (hp : Partition s fr lo) (ha : pageAsserts t e s)
    (hl : e.links s.page b = true) : b ∉ s.live := by
  have hoff : ∀ c, c ∈ fr ++ lo ++ s.queue ++ s.captured → c ∉ s.live :=
    fun c hc hlive => hp.out_off c (Or.inl hlive) hc
  have hlen := hp.lists.length_le
  cases e
  case setNext c n =>
    obtain rfl : b = c := by simpa [PageAct.links] using hl
    exact hp.freeing_live t b ha
  case splice tf =>
    obtain rfl : b = tf := by simpa [PageAct.links] using hl
    have hm := List.mem_of_mem_head? ha.2
    exact hoff b (by simp [hm])
  case freeLocal c =>
    obtain rfl : b = c := by simpa [PageAct.links] using hl
    exact hp.freeing_live t b ha.2
  case adoptLocal =>
    simp only [PageAct.links] at hl
    split at hl
    · next lf c hlf hc =>
      have hb : b = lastOf s.page.next s.page.capacity lf := by simpa using hl
      have hm := Lists.lastOf_mem hp.lists.localFree hlf (n := s.page.capacity) (by omega)
      exact hoff b (by simp [hb, hm])
    · cases hl
  case extendFree =>
    have hb : s.page.capacity ≤ b ∧ b < s.page.extendFree.capacity := by
      simpa [PageAct.links] using hl
    exact fun hlive => Nat.not_lt.mpr hb.1 (hp.out_lt b (Or.inl hlive))
  case collectBehind head =>
    obtain ⟨pre, rest, hq, -⟩ := List.eq_append_cons_of_mem ha.2
    have hlists := hp.lists
    rw [hq] at hlists
    simp only [PageAct.links] at hl
    split at hl
    · next c hc =>
      have hb : b = head ∨
          b = lastOf (Function.update s.page.next head none) s.page.capacity c := by
        simpa using hl
      rcases hb with hb | hb
      · exact hoff b (by simp [hb, hq])
      · have hm := hlists.lastOf_behind_mem hc
        exact hoff b (by simp [hb, hq, hm])
    · cases hl
  all_goals cases hl

end Links

/-! ## What the events of the page do -/

theorem Lists.fresh_iff {p : Page} {c : Option Blk} {fr lo xs cap : List Blk}
    (h : Lists p c fr lo xs cap) (b : Blk) :
    p.Fresh b ↔ b ∈ fr ∨ p.capacity ≤ b ∧ b < p.reserved := by
  constructor
  · rintro (⟨l, hl, hb⟩ | hb)
    · exact Or.inl (hl.unique h.free ▸ hb)
    · exact Or.inr hb
  · rintro (hb | hb)
    · exact Or.inl ⟨fr, h.free, hb⟩
    · exact Or.inr hb

/-- While `free_is_zero` stands, `local_free` was empty when it was adopted. -/
theorem Lists.of_adoptLocal {p : Page} {c : Option Blk} {fr lo xs cap : List Blk}
    (h : Lists p c fr lo xs cap) (hz : p.adoptLocal.freeIsZero = true) : lo = [] := by
  have hlo := h.localFree
  cases hl : p.localFree with
  | none => rwa [hl, Chain.none_iff] at hlo
  | some lf =>
    exfalso
    simp only [Page.adoptLocal, hl] at hz
    split at hz <;> cases hz

/-- The event does not write the owner id or release the page; it splices only when `free_is_zero` is
clear, collects in part only on a page of small blocks, and pops no block of a page that has been
released. -/
def PageAct.Plain (ar : Area) (s : Shared ℕ) : {β : Type} → PageAct β → Prop
  | _, .casId .. | _, .release => False
  | _, .splice _ => s.page.freeIsZero = false
  | _, .collectBehind _ => ar.blockSize ≤ miSmallSizeMax
  | _, .pop _ => s.released = false
  | _, _ => True

section Page

variable {m : ClientMem} {γ : ℕ → Ghost} {e : PageAct β} {choice : ℕ} {r : β} {s' : Shared ℕ}

/-- The effect of an event of the page, from what it does to the page itself. -/
theorem Effect.of_page_fields (hi : PageInv False m.shared γ) (ha : pageAsserts t e m.shared)
    (hfields : Lists.SameFields m.shared.page s'.page)
    (hlive : ∀ b, b ∈ m.shared.live → b ∈ s'.live)
    (hholder : ∀ u, u ≠ t → (s'.holder = some u ↔ m.shared.holder = some u))
    (hused : s'.page.used = m.shared.page.used ∨ m.shared.holder = some t)
    (hreleased : s'.released = m.shared.released)
    (hout : m.shared.released = true → ∀ b, s'.Outstanding b → m.shared.Outstanding b)
    (hfresh : s'.page.freeIsZero = true → miSmallSizeMax < ar.blockSize →
      ∀ b, s'.page.Fresh b → m.shared.page.Fresh b) :
    Effect ar t m { m with
      shared := s'
      bytes := ar.writeLinks (e.links m.shared.page) s'.page.next m.bytes } where
  reserved := hfields.reserved
  fault := rfl
  ptr := rfl
  unserved := rfl
  freeIsZero := hfields.freeIsZero
  live := hlive
  interior h := by
    unfold ClientMem.HasInterior at h ⊢
    rwa [hfields.xthreadId]
  ownerId := by simp only [ClientMem.ownerId, hfields.xthreadId]
  holder := hholder
  used := hused
  released := hreleased
  outstanding := hout
  kept b hb a hin := by
    obtain ⟨fr, lo, hp⟩ := hi.partition
    exact Area.writeLinks_of_not hin
      (Bool.eq_false_iff.mpr fun hl => hp.not_live_of_links ha hl hb)
  behind b k hk hz := hz.writeLinks hk
  fresh := hfresh

/-- Moving a block of the word leaves the live blocks and the holder alone. -/
theorem moveBlock_outstanding (s : Shared ℕ) (h h' : Option Blk) :
    (s.moveBlock t h h').live = s.live ∧ (s.moveBlock t h h').released = s.released ∧
      ∀ b, (s.moveBlock t h h').Outstanding b → s.Outstanding b := by
  unfold Shared.moveBlock
  split
  · exact ⟨rfl, rfl, fun _ hb => hb⟩
  split
  · exact ⟨rfl, rfl, fun _ hb => hb⟩
  · refine ⟨rfl, rfl, ?_⟩
    rintro b (hb | ⟨u, hu⟩)
    · exact Or.inl hb
    · right
      have hu : Function.update s.freeing t none u = some b := hu
      by_cases hut : u = t
      · subst hut
        simp at hu
      · exact ⟨u, by rwa [Function.update_of_ne hut] at hu⟩

/-- What a successful compare-exchange leaves as it is. -/
theorem exchange_kept (hi : PageInv False m.shared γ) {w n : Tf}
    (hw : m.shared.page.xthreadFree = w)
    (hown : w.owned = true → n.owned = false → m.shared.holder = some t) :
    (m.shared.exchange t w n).page = { m.shared.page with xthreadFree := n } ∧
    (m.shared.exchange t w n).live = m.shared.live ∧
    (m.shared.exchange t w n).released = m.shared.released ∧
    (∀ b, (m.shared.exchange t w n).Outstanding b → m.shared.Outstanding b) ∧
    ∀ u, u ≠ t → ((m.shared.exchange t w n).holder = some u ↔ m.shared.holder = some u) := by
  obtain ⟨hpage, hholder, -⟩ := (m.shared.setWord n).moveBlock_kept t w.block n.block
  obtain ⟨hlive, hreleased, hout⟩ :=
    moveBlock_outstanding (t := t) (m.shared.setWord n) w.block n.block
  unfold Shared.exchange
  generalize (m.shared.setWord n).moveBlock t w.block n.block = q at *
  cases ho : w.owned <;> cases hn : n.owned
  · exact ⟨hpage, hlive, hreleased, hout, fun u _ => Eq.congr_left hholder⟩
  · have hnone : m.shared.holder = none := hi.holder_eq_none (hw ▸ ho)
    refine ⟨hpage, hlive, hreleased, hout, fun u hu => ?_⟩
    rw [hnone]
    constructor
    · intro h
      exact absurd (Option.some.inj h).symm hu
    · intro h
      cases h
  · refine ⟨hpage, hlive, hreleased, hout, fun u hu => ?_⟩
    rw [hown ho hn]
    constructor
    · intro h
      cases h
    · intro h
      exact absurd (Option.some.inj h).symm hu
  · exact ⟨hpage, hlive, hreleased, hout, fun u _ => Eq.congr_left hholder⟩

/-- **The effect of an event of the page.** -/
theorem Effect.of_page (hi : PageInv False m.shared γ) (ha : pageAsserts t e m.shared)
    (hplain : e.Plain ar m.shared) (hex : m.shared.exec t e choice = some (r, s')) :
    Effect ar t m { m with
      shared := s'
      bytes := ar.writeLinks (e.links m.shared.page) s'.page.next m.bytes } := by
  obtain ⟨fr, lo, hp⟩ := hi.partition
  -- an event that changes nothing of the page but the fields named
  have same : ∀ {s' : Shared ℕ}, s'.page = m.shared.page → s'.live = m.shared.live →
      s'.freeing = m.shared.freeing → s'.holder = m.shared.holder →
      s'.released = m.shared.released → Effect ar t m { m with
        shared := s'
        bytes := ar.writeLinks (e.links m.shared.page) s'.page.next m.bytes } := by
    intro s' hpage hlive hfreeing hholder hreleased
    apply Effect.of_page_fields hi ha
    · rw [hpage]
      exact ⟨rfl, rfl, id⟩
    · exact fun b hb => hlive ▸ hb
    · exact fun u _ => by rw [hholder]
    · exact Or.inl (by rw [hpage])
    · exact hreleased
    · intro _ b
      simp only [Shared.Outstanding, hlive, hfreeing, imp_self]
    · intro _ _ b hb
      rwa [hpage] at hb
  cases e
  case cas weak w n =>
    rcases PageSafe.exec_cas hex with ⟨-, hw, -, rfl⟩ | ⟨-, -, rfl⟩ | ⟨-, -, rfl⟩
    · obtain ⟨hpage, hlive, hreleased, hout, hholder⟩ := exchange_kept hi hw (ha hw).2
      apply Effect.of_page_fields hi ha
      · rw [hpage]
        exact ⟨rfl, rfl, id⟩
      · exact fun b hb => hlive ▸ hb
      · exact hholder
      · exact Or.inl (by rw [hpage])
      · exact hreleased
      · exact fun _ => hout
      · intro _ _ b hb
        rwa [hpage] at hb
    · exact same rfl rfl rfl rfl rfl
    · exact same rfl rfl rfl rfl rfl
  case casId => exact hplain.elim
  case release => exact hplain.elim
  case setNext c n =>
    cases hex
    refine Effect.of_page_fields hi ha ⟨rfl, rfl, id⟩ (fun _ hb => hb) (fun _ _ => Iff.rfl)
      (Or.inl rfl) rfl (fun _ _ hb => hb) ?_
    intro _ _ b hb
    rw [(hp.setNext ha n).lists.fresh_iff] at hb
    exact (hp.lists.fresh_iff b).mpr hb
  case clearZero =>
    cases hex
    exact Effect.of_page_fields hi ha ⟨rfl, rfl, fun h => by cases h⟩ (fun _ hb => hb)
      (fun _ _ => Iff.rfl) (Or.inl rfl) rfl (fun _ _ hb => hb) fun h => by cases h
  case splice tf =>
    cases hex
    have hplain : m.shared.page.freeIsZero = false := hplain
    have hclear : (m.shared.page.splice tf).2.freeIsZero = true → False := fun h => by
      rw [show (m.shared.page.splice tf).2.freeIsZero = m.shared.page.freeIsZero from rfl,
        hplain] at h
      cases h
    exact Effect.of_page_fields hi ha ⟨rfl, rfl, fun h => (hclear h).elim⟩ (fun _ hb => hb)
      (fun _ _ => Iff.rfl) (Or.inr ha.1) rfl (fun _ _ hb => hb) fun h => (hclear h).elim
  case adoptLocal =>
    cases hex
    refine Effect.of_page_fields hi ha Lists.adoptLocal_sameFields (fun _ hb => hb)
      (fun _ _ => Iff.rfl) (Or.inr ha) rfl (fun _ _ hb => hb) ?_
    intro hz _ b hb
    rw [hp.adoptLocal.lists.fresh_iff, Lists.adoptLocal_capacity,
      Lists.adoptLocal_sameFields.reserved] at hb
    rw [hp.lists.of_adoptLocal hz] at hb
    exact (hp.lists.fresh_iff b).mpr (by simpa using hb)
  case extendFree =>
    cases hex
    refine Effect.of_page_fields hi ha Lists.extendFree_sameFields (fun _ hb => hb)
      (fun _ _ => Iff.rfl) (Or.inr ha) rfl (fun _ _ hb => hb) ?_
    intro _ _ b hb
    have hcap := hp.extendFree.lists.capacity_le
    rw [hp.extendFree.lists.fresh_iff, Lists.extendFree_sameFields.reserved,
      hp.lists.extendFree.2] at hb
    rw [Lists.extendFree_sameFields.reserved, hp.lists.extendFree.2] at hcap
    rw [hp.lists.fresh_iff]
    simp only [List.mem_append, List.mem_range'_1] at hb
    rcases hb with (hb | hb) | hb
    · exact Or.inr ⟨hb.1, Nat.lt_of_lt_of_le hb.2 hcap⟩
    · exact Or.inl hb
    · exact Or.inr ⟨by omega, hb.2⟩
  case pop c =>
    cases hex
    have hplain : m.shared.released = false := hplain
    refine Effect.of_page_fields hi ha ⟨rfl, rfl, id⟩ (fun _ hb => List.mem_cons_of_mem _ hb)
      (fun _ _ => Iff.rfl) (Or.inr ha.1) rfl ?_ ?_
    · intro hr
      rw [hplain] at hr
      cases hr
    · intro _ _ b hb
      obtain ⟨-, fr', rfl, hp'⟩ := hp.pop ha.2
      rw [hp'.lists.fresh_iff] at hb
      exact (hp.lists.fresh_iff b).mpr (hb.imp_left (List.mem_cons_of_mem c))
  case freeLocal c =>
    cases hex
    refine Effect.of_page_fields hi ha ⟨rfl, rfl, id⟩ (fun _ hb => hb) (fun _ _ => Iff.rfl)
      (Or.inr ha.1) rfl ?_ ?_
    · intro _ b hb
      exact ((hp.outstanding_freed ha.2 _ (by rfl) (by rfl) b).mp hb).1
    · intro _ _ b hb
      rw [(hp.freeLocal ha.2 m.shared.tested).lists.fresh_iff] at hb
      exact (hp.lists.fresh_iff b).mpr hb
  case collectBehind head =>
    cases hex
    refine Effect.of_page_fields hi ha Lists.collectBehind_sameFields (fun _ hb => hb)
      (fun _ _ => Iff.rfl) (Or.inr ha.1) rfl (fun _ _ hb => hb) ?_
    intro _ hbig
    exact absurd hbig (Nat.not_lt.mpr hplain)
  all_goals
    cases hex
    exact same rfl rfl rfl rfl rfl

/-- The effect of an event of the page that writes no link. -/
theorem Effect.of_page_plain (hl : ∀ p b, e.links p b = false) (hi : PageInv False m.shared γ)
    (ha : pageAsserts t e m.shared) (hplain : e.Plain ar m.shared)
    (hex : m.shared.exec t e choice = some (r, s')) : Effect ar t m { m with shared := s' } := by
  have heff : Effect ar t m _ := Effect.of_page hi ha hplain hex
  rwa [Area.writeLinks_none (hl m.shared.page)] at heff

end Page

/-! ## Events of the page in the outline -/

/-- `Safe` for the programs on a page and its blocks. -/
abbrev ClientSafe {α : Type} (ar : Area) (t : ℕ) (p : Prog ClientAct α) (g : Ghost) (h : Know)
    (Q : α → Ghost × Know → Prop) : Prop :=
  Safe (clientMachine ar) (clientOutline ar) t p (g, h) Q

variable {g : Ghost} {h : Know} {Q : α → Ghost × Know → Prop}

theorem fst_update {γ : ℕ → Ghost × Know} (g' : Ghost) (h' : Know) :
    (fun u => (Function.update γ t (g', h') u).1) = Function.update (fun u => (γ u).1) t g' := by
  funext u
  by_cases hu : u = t
  · subst hu
    simp
  · simp [hu]

theorem snd_update {γ : ℕ → Ghost × Know} (g' : Ghost) (h' : Know) :
    (fun u => (Function.update γ t (g', h') u).2) = Function.update (fun u => (γ u).2) t h' := by
  funext u
  by_cases hu : u = t
  · subst hu
    simp
  · simp [hu]

/-- What an event of the page is to leave true, when the ghost of its thread becomes `h'`. -/
theorem clientOutline_inv {γ : ℕ → Ghost × Know} {m : ClientMem} {g' : Ghost} {h' : Know}
    (hi : PageInv False m.shared (Function.update (fun u => (γ u).1) t g'))
    (hk : Knows ar m (Function.update (fun u => (γ u).2) t h')) :
    (clientOutline ar).inv m (Function.update γ t (g', h')) := by
  show PageInv False m.shared _ ∧ Knows ar m _
  rw [fst_update, snd_update]
  exact ⟨hi, hk⟩

namespace ClientSafe

/-- An event of the page, from its rule in the outline of the page. -/
theorem pageAct {e : PageAct β} {k : β → Prog ClientAct α} {K : β → Ghost → Prop}
    (hresp : ∀ m, h.View ar m t → e.Respects t m) (hs : PageSafe False t (.act e .ret) g K)
    (hstep : ∀ (m : ClientMem) γ κ choice b s' g', PageInv False m.shared γ → Knows ar m κ →
      κ t = h → pageAsserts t e m.shared → m.shared.exec t e choice = some (b, s') →
      PageInv False s' (Function.update γ t g') → K b g' →
      ∃ h', Knows ar { m with
        shared := s'
        bytes := ar.writeLinks (e.links m.shared.page) s'.page.next m.bytes }
        (Function.update κ t h') ∧ ClientSafe ar t (k b) g' h' Q) :
    ClientSafe ar t (.act (.page e) k) g h Q := by
  have hext : Extends (machine ℕ) (pageOutline ℕ False) (clientMachine ar) (clientOutline ar)
      ClientMem.shared t e (.page e) h fun b g' inv =>
        K b g' → ∃ h', inv h' ∧ ClientSafe ar t (k b) g' h' Q := by
    intro m γ choice b m' hinv hh _ hex
    obtain ⟨⟨b, s'⟩, hx, heq⟩ := Option.map_eq_some_iff.mp hex
    cases heq
    have hr := hresp m (hh ▸ hinv.2.view t)
    refine ⟨hinv.1, False.elim, hx, fun ha => ⟨⟨ha, hr⟩, fun g' hi' hK => ?_⟩⟩
    obtain ⟨h', hk', hsafe⟩ := hstep m _ _ choice b s' g' hinv.1 hinv.2 hh ha hx hi' hK
    exact ⟨h', clientOutline_inv hi' hk', hsafe⟩
  exact Safe.extend_act hs hext

/-- An event of the page that writes no link. -/
theorem pageActPlain {e : PageAct β} {k : β → Prog ClientAct α} {K : β → Ghost → Prop}
    (hresp : ∀ m, h.View ar m t → e.Respects t m) (hl : ∀ p b, e.links p b = false)
    (hs : PageSafe False t (.act e .ret) g K)
    (hstep : ∀ (m : ClientMem) γ κ choice b s' g', PageInv False m.shared γ → Knows ar m κ →
      κ t = h → m.shared.exec t e choice = some (b, s') →
      PageInv False s' (Function.update γ t g') → K b g' →
      ∃ h', Knows ar { m with shared := s' } (Function.update κ t h') ∧
        ClientSafe ar t (k b) g' h' Q) :
    ClientSafe ar t (.act (.page e) k) g h Q := by
  apply pageAct hresp hs
  intro m γ κ choice b s' g' hi hk hh _ hex hi' hK
  rw [Area.writeLinks_none (hl m.shared.page)]
  exact hstep m γ κ choice b s' g' hi hk hh hex hi' hK

end ClientSafe

/-- The event leaves what the thread knows true. -/
def Know.Allows (ar : Area) (h : Know) : {β : Type} → PageAct β → Prop
  | _, .cas _ w n => w.owned = true → n.owned = false →
      h.stamped = false ∧ h.gone = false ∧ h.emptied = false
  | _, .splice _ => h.cleared = true ∧ h.emptied = false
  | _, .freeLocal _ => h.emptied = false ∧ h.stamped = true
  | _, .collectBehind _ => ar.blockSize ≤ miSmallSizeMax ∧ h.emptied = false
  | _, .casId .. | _, .release | _, .pop _ => False
  | _, _ => True

section Quiet

variable {m : ClientMem} {γ : ℕ → Ghost} {κ : ℕ → Know} {e : PageAct β} {choice : ℕ} {r : β}
variable {s' : Shared ℕ}

theorem Know.Allows.plain (hallow : h.Allows ar e) (hv : h.View ar m t) :
    e.Plain ar m.shared := by
  cases e
  case splice => exact hv.cleared hallow.1
  case collectBehind => exact hallow.1
  case casId | release | pop => exact hallow.elim
  all_goals trivial

theorem Know.Allows.respects (hallow : h.Allows ar e) (hv : h.View ar m t) : e.Respects t m := by
  cases e
  case freeLocal => exact (hv.stamped hallow.2).2
  case casId => exact hallow.elim
  all_goals trivial

/-- A thread that loses the page is allowed to. -/
theorem Know.Allows.holder (hallow : h.Allows ar e)
    (hex : m.shared.exec t e choice = some (r, s')) (hh : m.shared.holder = some t) :
    s'.holder = some t ∨ h.stamped = false ∧ h.gone = false ∧ h.emptied = false := by
  cases e
  case cas weak w n =>
    rcases PageSafe.exec_cas hex with ⟨-, -, -, rfl⟩ | ⟨-, -, rfl⟩ | ⟨-, -, rfl⟩
    · obtain ⟨-, hholder, -⟩ := (m.shared.setWord n).moveBlock_kept t w.block n.block
      unfold Shared.exchange
      cases ho : w.owned <;> cases hn : n.owned
      · exact Or.inl (hholder.trans hh)
      · exact Or.inl rfl
      · exact Or.inr (hallow ho hn)
      · exact Or.inl (hholder.trans hh)
    · exact Or.inl hh
    · exact Or.inl hh
  case casId => exact hallow.elim
  all_goals
    cases hex
    exact Or.inl hh

/-- A thread that has found the page empty leaves it so. -/
theorem Know.Allows.used (hallow : h.Allows ar e)
    (hex : m.shared.exec t e choice = some (r, s')) (hem : h.emptied = true) :
    s'.page.used = m.shared.page.used := by
  have hno : h.emptied ≠ false := fun hf => by
    rw [hem] at hf
    cases hf
  cases e
  case cas weak w n =>
    rcases PageSafe.exec_cas hex with ⟨-, -, -, rfl⟩ | ⟨-, -, rfl⟩ | ⟨-, -, rfl⟩
    · obtain ⟨hpage, -⟩ :=
        ((m.shared.setWord n).moveBlock t w.block n.block).moveOwner_kept t w.owned n.owned
      obtain ⟨hpage', -⟩ := (m.shared.setWord n).moveBlock_kept t w.block n.block
      rw [Shared.exchange, hpage, hpage']
      rfl
    · rfl
    · rfl
  case splice => exact absurd hallow.2 hno
  case freeLocal => exact absurd hallow.1 hno
  case collectBehind => exact absurd hallow.2 hno
  case casId | pop => exact hallow.elim
  case adoptLocal =>
    cases hex
    exact Lists.adoptLocal_used
  case extendFree =>
    cases hex
    exact Lists.extendFree_used
  all_goals
    cases hex
    rfl

/-- An event that leaves what its thread knows true. -/
theorem Knows.of_allows (hi : PageInv False m.shared γ) (hk : Knows ar m κ) (hh : κ t = h)
    (hallow : h.Allows ar e) (ha : pageAsserts t e m.shared)
    (hex : m.shared.exec t e choice = some (r, s')) :
    Knows ar { m with
      shared := s'
      bytes := ar.writeLinks (e.links m.shared.page) s'.page.next m.bytes } κ := by
  have hv := hk.view t
  rw [hh] at hv
  have heff := Effect.of_page hi ha (hallow.plain hv) hex
  have hk' := hk.of_effect (k := h) heff
    (heff.view_self hk hv (hallow.holder hex) (hallow.used hex)) (fun hs => hh ▸ hs)
    (fun hg => by
      rw [hh] at hg
      refine (hallow.holder hex (hv.gone hg).1).resolve_right fun hn => ?_
      rw [hg] at hn
      cases hn.2.1)
    (fun b hb => Or.inl (hh ▸ hb))
  rwa [← hh, Function.update_eq_self] at hk'

end Quiet

namespace ClientSafe

/-- A program of the page whose events leave what the thread knows true. -/
theorem onPage {p : Prog PageAct α} {K : α → Ghost → Prop} (hp : p.Every (h.Allows ar))
    (hs : PageSafe False t p g K) :
    ClientSafe ar t (Client.onPage p) g h fun a g' => ∃ g₁, g' = (g₁, h) ∧ K a g₁ := by
  have hstep : ∀ {β : Type} (e : PageAct β), h.Allows ar e →
      Extends (machine ℕ) (pageOutline ℕ False) (clientMachine ar) (clientOutline ar)
        ClientMem.shared t e (.page e) h fun _ _ inv => inv h := by
    intro β e hallow m γ choice b m' hinv hh _ hex
    obtain ⟨⟨b, s'⟩, hx, heq⟩ := Option.map_eq_some_iff.mp hex
    cases heq
    have hr := hallow.respects (hh ▸ hinv.2.view t)
    refine ⟨hinv.1, False.elim, hx, fun ha => ⟨⟨ha, hr⟩, fun g' hi' => clientOutline_inv hi' ?_⟩⟩
    have hk' := hinv.2.of_allows hinv.1 hh hallow ha hx
    rw [← hh]
    rwa [Function.update_eq_self (f := fun u => (γ u).2)]
  apply (Safe.extend ClientAct.page hstep hp hs).mono
  rintro a ⟨g₁, h₁⟩ ⟨hK, hh⟩
  exact ⟨g₁, by rw [← hh], hK⟩

/-- One event of the page that leaves what the thread knows true. -/
theorem quiet {e : PageAct β} {k : β → Prog ClientAct α} {K : β → Ghost → Prop}
    (hallow : h.Allows ar e) (hs : PageSafe False t (.act e .ret) g K)
    (hk : ∀ b g₁, K b g₁ → ClientSafe ar t (k b) g₁ h Q) :
    ClientSafe ar t (.act (.page e) k) g h Q := by
  have hact : ClientSafe ar t (Client.onPage (.act e .ret)) g h fun b g' =>
      ∃ g₁, g' = (g₁, h) ∧ K b g₁ := onPage ⟨hallow, fun _ => trivial⟩ hs
  apply Safe.bind (p := Client.onPage (.act e .ret)) (f := k)
  apply hact.mono
  rintro b _ ⟨g₁, rfl, hK⟩
  exact hk b g₁ hK

end ClientSafe

end MimallocRs
