import MimallocRs.Client.Zeroed
import MimallocRs.Foundations.Interleave.Serial

/-!
# What is written stays written

The allocator writes links and zeroes into the same memory that it hands out. `contents_kept` says
that it never writes into a block whose pointer a client has: whatever any threads do with the page,
the pointer stays handed out and the bytes of the block are those that were there, until a client
writes into it or frees it. The links that an event writes are in blocks that are not live
(`Partition.not_live_of_links`). What is zeroed lies in a block that its thread has popped and not
yet returned, as the outline `zeroingOutline` asserts.
-/

namespace MimallocRs

open Interleave Prog

variable {ar : Area} {t : ℕ} {β : Type} {γ : ℕ → Ghost × Know} {m m' : ClientMem} {b : Blk} {p : ℕ}
  {c c' : Config ClientAct ℕ ClientOp ClientOp.Res ClientMem}

/-! ## What is zeroed has not been handed out -/

theorem retirePage_zeroesNone : Client.retirePage.Every ClientAct.ZeroesNone := by
  refine ⟨trivial, fun r => ?_⟩
  cases r with
  | false => exact onPage_zeroesNone _
  | true => trivial

theorem retireIfEmpty_zeroesNone :
    ((Client.onPage (perform .isAllFree)).bind fun r =>
      if r then Client.retirePage else .ret ()).Every ClientAct.ZeroesNone := by
  apply (onPage_zeroesNone _).bind
  intro r
  cases r with
  | false => trivial
  | true => exact retirePage_zeroesNone

theorem freeOwned_zeroesNone {a : ℕ} : (Client.freeOwned ar a).Every ClientAct.ZeroesNone := by
  unfold Client.freeOwned Client.withBlock
  split
  · exact (onPage_zeroesNone _).bind fun _ => retireIfEmpty_zeroesNone
  · exact ⟨trivial, fun _ => trivial⟩

theorem free_zeroesNone {tid : ℕ} : (Client.free ar tid p).Every ClientAct.ZeroesNone := by
  refine ⟨trivial, fun r => ?_⟩
  cases r with
  | false => trivial
  | true =>
    apply (onPage_zeroesNone _).bind
    intro raw
    dsimp only
    split
    · exact freeOwned_zeroesNone
    unfold Client.freeCold
    split
    · exact freeOwned_zeroesNone
    unfold Client.withBlock
    split
    · exact onPage_zeroesNone _
    · exact ⟨trivial, fun _ => trivial⟩

/-- A started operation is safe in the outline that asserts what is zeroed. -/
theorem zeroing_start {o : ClientOp} (hinv : (clientOutline ar).inv m γ)
    (hidle : ClientIdle (γ t).1 (γ t).2) (hm : (clientSystem ar).start t o m = some m') :
    ∃ g, (zeroingOutline ar).inv m' (Function.update γ t g) ∧
      Safe (clientMachine ar) (zeroingOutline ar) t ((clientSystem ar).prog t o) g
        (clientPost ar t o) := by
  have none : ((clientSystem ar).prog t o).Every ClientAct.ZeroesNone →
      ∃ g, (zeroingOutline ar).inv m' (Function.update γ t g) ∧
        Safe (clientMachine ar) (zeroingOutline ar) t ((clientSystem ar).prog t o) g
          (clientPost ar t o) := by
    intro hz
    obtain ⟨g, hinv', hs⟩ := clientSystem_start hinv hidle hm
    exact ⟨g, hinv', ZeroSafe.of_none hs hz⟩
  cases o with
  | alloc size => exact none alloc_zeroesNone
  | allocAligned size align => exact none allocAligned_zeroesNone
  | allocZeroed size =>
    obtain ⟨hlt, hserves, g, h, ha, hinv'⟩ := request_start hinv hidle hm
    exact ⟨(g, h), hinv', ZeroSafe.allocZeroed ha (hserves.size_le hlt)⟩
  | allocZeroedAligned size align =>
    simp only [clientSystem] at hm
    split at hm
    · next hpow =>
      obtain ⟨hlt, hserves, g, h, ha, hinv'⟩ := request_start hinv hidle hm
      exact ⟨(g, h), hinv', ZeroSafe.allocZeroedAligned ha hpow hlt (hserves.size_le hlt)⟩
    · cases hm
  | free p => exact none free_zeroesNone
  | write b content => exact none trivial
  | isFull => exact none (onPage_zeroesNone _)
  | collect => exact none ((onPage_zeroesNone _).bind fun _ => retireIfEmpty_zeroesNone)
  | collectRetired => exact none retireIfEmpty_zeroesNone
  | exit => exact none (onPage_zeroesNone _)
  | reclaim => exact none (onPage_zeroesNone _)

/-- The outline that asserts what is zeroed, in every reachable configuration. -/
theorem zeroing_reachable
    (h : (clientSystem ar).Reachable (ClientMem.Init ar) System.anyMove c) :
    ∃ γ, (zeroingOutline ar).inv c.mem γ ∧ ∀ t, (zeroingOutline ar).Thread (clientMachine ar)
      (fun _ g => ClientIdle g.1 g.2) (clientPost ar) t (γ t) (c.thread t) := by
  apply Outline.reachable (O := zeroingOutline ar) _ _ _ _ h
  · exact fun s hs => hs.inv
  · exact fun t o s s' γ hinv hidle hs => zeroing_start hinv hidle hs
  · exact fun t o r s γ hinv hpost => clientSystem_finish hinv hpost
  · exact fun c m _ => fun _ _ _ _ _ _ _ _ => trivial

/-! ## What a move does to a block in use -/

/-- The pointer of the block stays handed out, and its bytes stay as they are. -/
def Area.Keeps (ar : Area) (b : Blk) (p : ℕ) (m m' : ClientMem) : Prop :=
  m'.ptr b = some p ∧ ∀ a, ar.Inside a b → m'.bytes a = m.bytes a

/-- The operation neither frees the pointer nor writes into the block. -/
def ClientOp.Spares (b : Blk) (p : ℕ) : ClientOp → Prop
  | .free q => q ≠ p
  | .write d _ => d ≠ b
  | _ => True

/-- The move starts no operation that frees the pointer or writes into the block. -/
def Spares (b : Blk) (p : ℕ) : Move ℕ ClientOp → Prop
  | .start _ o => o.Spares b p
  | _ => True

theorem Area.Keeps.of_start {o : ClientOp} (hb : m.ptr b = some p) (ho : o.Spares b p)
    (hm : (clientSystem ar).start t o m = some m') : ar.Keeps b p m m' := by
  have request : ∀ {size}, m.request ar t size = some m' → ar.Keeps b p m m' := by
    intro size hm
    unfold ClientMem.request at hm
    split at hm
    · obtain ⟨s, -, rfl⟩ := Option.map_eq_some_iff.mp hm
      exact ⟨hb, fun _ _ => rfl⟩
    · cases hm
  cases o with
  | alloc size | allocZeroed size => exact request hm
  | allocAligned size align | allocZeroedAligned size align =>
    simp only [clientSystem] at hm
    split at hm
    · exact request hm
    · cases hm
  | free q =>
    have hq : q ≠ p := ho
    simp only [clientSystem, ClientMem.take] at hm
    split at hm
    · next hptr =>
      obtain ⟨s, -, rfl⟩ := Option.map_eq_some_iff.mp hm
      refine ⟨?_, fun _ _ => rfl⟩
      show Function.update m.ptr (ar.blockOf q) none b = some p
      rw [Function.update_of_ne, hb]
      rintro rfl
      exact hq (Option.some.inj (hptr.symm.trans hb))
    · cases hm
  | write d content =>
    have hd : d ≠ b := ho
    simp only [clientSystem, ClientMem.userWrite] at hm
    split at hm
    · cases hm
      exact ⟨hb, fun a ha => if_neg fun hin => hd (Area.Inside.unique hin ha)⟩
    · cases hm
  | isFull | collect | collectRetired | exit =>
    obtain ⟨s, -, rfl⟩ := Option.map_eq_some_iff.mp hm
    exact ⟨hb, fun _ _ => rfl⟩
  | reclaim =>
    simp only [clientSystem] at hm
    split at hm
    · cases hm
    · cases hm
      exact ⟨hb, fun _ _ => rfl⟩

theorem Area.Keeps.of_exec {e : ClientAct β} {choice : ℕ} {r : β}
    (hinv : (zeroingOutline ar).inv m γ) (ha : (zeroingOutline ar).asserts t e m)
    (hb : m.ptr b = some p) (hex : m.exec ar t e choice = some (r, m')) : ar.Keeps b p m m' := by
  obtain ⟨hi, hk⟩ := hinv
  obtain ⟨ha, hzero⟩ := ha
  have hlive := (hk.ptr b p hb).1
  obtain ⟨fr, lo, hpart⟩ := hi.partition
  cases e with
  | page e =>
    obtain ⟨⟨r, s'⟩, -, heq⟩ := Option.map_eq_some_iff.mp hex
    cases heq
    refine ⟨hb, fun a hin => Area.writeLinks_of_not hin ?_⟩
    exact Bool.eq_false_iff.mpr fun hl => hpart.not_live_of_links ha.1 hl hlive
  | writeZero a n k =>
    cases hex
    obtain ⟨d, hd, hin⟩ := hzero
    refine ⟨hb, fun x hx => if_neg fun hx' => ?_⟩
    rw [(hin x hx'.1 hx'.2).unique hx, hb] at hd
    cases hd
  | lookup | setHasInterior | freeIsZero | keeps | offGrid =>
    cases hex
    exact ⟨hb, fun _ _ => rfl⟩

theorem Area.Keeps.of_finish {o : ClientOp} {r : o.Res} (hinv : (clientOutline ar).inv m γ)
    (hpost : clientPost ar t o r (γ t)) (hb : m.ptr b = some p) :
    ar.Keeps b p m ((clientSystem ar).finish t o r m) := by
  have answer : ∀ {size} {r : Option ℕ}, Answered ar size r (γ t).1 (γ t).2 →
      ar.Keeps b p m (r.elim m (m.handOut ar)) := by
    intro size r ha
    cases r with
    | none => exact ⟨hb, fun _ _ => rfl⟩
    | some q =>
      obtain ⟨d, hs⟩ := ha.some q rfl
      have hd := ((hinv.2.view t).got d hs.got).2.1
      refine ⟨?_, fun _ _ => rfl⟩
      show Function.update m.ptr (ar.blockOf q) (some q) b = some p
      rw [hs.inside.blockOf_eq, Function.update_of_ne, hb]
      rintro rfl
      cases hd.symm.trans hb
  cases o with
  | alloc size | allocAligned size align => cases r <;> exact answer hpost
  | allocZeroed size | allocZeroedAligned size align => cases r <;> exact answer hpost.1
  | reclaim => cases r <;> exact ⟨hb, fun _ _ => rfl⟩
  | free | write | isFull | collect | collectRetired | exit => exact ⟨hb, fun _ _ => rfl⟩

/-- One move. -/
theorem Area.Keeps.of_next {mv : Move ℕ ClientOp}
    (h : (clientSystem ar).Reachable (ClientMem.Init ar) System.anyMove c)
    (hb : c.mem.ptr b = some p) (hspare : Spares b p mv)
    (hm : (clientSystem ar).next mv c = some c') : ar.Keeps b p c.mem c'.mem := by
  obtain ⟨γ, hinv, hth⟩ := zeroing_reachable h
  cases mv with
  | start t o =>
    obtain ⟨-, s, hs, rfl⟩ := System.next_start hm
    exact .of_start hb hspare hs
  | step t choice =>
    obtain ⟨o, f, s, f', ht, hf, rfl⟩ := System.next_step hm
    cases f with
    | ret a => cases hf
    | act e k =>
      obtain ⟨⟨r, s'⟩, hex, heq⟩ := Option.map_eq_some_iff.mp hf
      cases heq
      have ha := Outline.asserts_of_thread hinv (hth t) ht trivial hex
      exact .of_exec hinv ha hb hex
    | loop body d k =>
      cases hf
      exact ⟨hb, fun _ _ => rfl⟩
  | finish t =>
    obtain ⟨o, r, ht, rfl⟩ := System.next_finish hm
    have hpost := hth t
    rw [ht] at hpost
    exact .of_finish hinv (Safe.of_ret hpost) hb

/-- **What is written stays written.** From any reachable configuration in which a client has the
pointer of a block, and over any moves of any threads of which none frees that pointer or writes into
that block. -/
theorem contents_kept (h : (clientSystem ar).Reachable (ClientMem.Init ar) System.anyMove c)
    (hb : c.mem.ptr b = some p) {ms : List (Move ℕ ClientOp)} (hms : ∀ mv ∈ ms, Spares b p mv)
    (hrun : (clientSystem ar).run ms c = some c') :
    c'.mem.ptr b = some p ∧ ∀ a, ar.Inside a b → c'.mem.bytes a = c.mem.bytes a := by
  induction ms generalizing c with
  | nil =>
    cases hrun
    exact ⟨hb, fun _ _ => rfl⟩
  | cons mv ms ih =>
    obtain ⟨d, hd, hrun⟩ := Option.bind_eq_some_iff.mp hrun
    obtain ⟨hb', hkeep⟩ := Area.Keeps.of_next h hb (hms mv (List.mem_cons_self ..)) hd
    obtain ⟨hb'', hkeep'⟩ := ih (h.next trivial hd) hb'
      (fun mv' hmv => hms mv' (List.mem_cons_of_mem _ hmv)) hrun
    exact ⟨hb'', fun a ha => (hkeep' a ha).trans (hkeep a ha)⟩

/-- A thread fills its huge block and then sweeps the page. -/
theorem contents_kept_huge :
    ∃ c c', (clientSystem hugeArea).run [.start 0 .collect, .step 0 0, .step 0 0, .step 0 0,
        .step 0 0, .finish 0] c = some c' ∧ c.mem.bytes 2000000 = 7 ∧
      ∀ a, hugeArea.Inside a 0 → c'.mem.bytes a = c.mem.bytes a := by
  have hfilled : (onHugePage [.start 0 (.alloc 6000010), .finish 0,
      .start 0 (.write 0 fun _ => 7), .finish 0]).any (fun c =>
        c.mem.ptr 0 = some 1114112 ∧ c.mem.bytes 2000000 = 7 ∧
        ((clientSystem hugeArea).run [.start 0 .collect, .step 0 0, .step 0 0, .step 0 0,
          .step 0 0, .finish 0] c).isSome) = true := by
    decide +kernel
  obtain ⟨c, hc, htest⟩ := System.exists_run hfilled
  obtain ⟨hptr, hbytes, hsome⟩ := of_decide_eq_true htest
  obtain ⟨c', hc'⟩ := Option.isSome_iff_exists.mp hsome
  obtain ⟨-, hkeep⟩ := contents_kept (onHugePage_reachable hc) hptr
    (by simp [Spares, ClientOp.Spares]) hc'
  exact ⟨c, c', hc', hbytes, hkeep⟩

end MimallocRs
