import Munch.Proofs.Scan.MaximalMunch

/-!
# Draining a scanner

`Scanner.drainOnto` calls `next` until nothing comes. The equations below say
what one call adds (`drain_of_none`, `drain_of_some`); with a closed table no call
enters a missing state, so the checked scan yields what the plain one yields
(`drain?_eq_drain`).
-/

namespace Munch.Scanner

variable {d : Dfa} {s s' : Scanner} {item : Item}

theorem drainOnto_of_none (h : s.next d = (none, s')) (collected : List Item) :
    s.drainOnto d collected = (collected.reverse, s') := by
  rw [drainOnto]
  split
  · rename_i heq
    rw [h] at heq
    rw [(Prod.mk.inj heq).2]
  · rename_i heq
    rw [h] at heq
    cases heq

theorem drainOnto_of_some (h : s.next d = (some item, s')) (collected : List Item) :
    s.drainOnto d collected = s'.drainOnto d (item :: collected) := by
  rw [drainOnto]
  split
  · rename_i heq
    rw [h] at heq
    cases heq
  · rename_i heq
    rw [h] at heq
    obtain ⟨hitem, rfl⟩ := Prod.mk.inj heq
    rw [Option.some.inj hitem]

/-- Nothing comes from a scanner that has halted. -/
theorem drainOnto_of_halted (hpending : s.pending = none) (hhalted : s.halted = true)
    (collected : List Item) : s.drainOnto d collected = (collected.reverse, s) := by
  apply drainOnto_of_none
  rw [next, hpending]
  simp only [hhalted, if_true]

/-- What is collected already stands in front of what is left. -/
theorem drainOnto_fst (d : Dfa) (s : Scanner) (collected : List Item) :
    (s.drainOnto d collected).1 = collected.reverse ++ (s.drain d).1 := by
  induction hw : s.weight using Nat.strongRecOn generalizing s collected with
  | ind w ih =>
    cases hnext : s.next d with
    | mk item s' =>
      cases item with
      | none => rw [drain, drainOnto_of_none hnext, drainOnto_of_none hnext]; simp
      | some item =>
        have hlt : s'.weight < w := hw ▸ weight_next_lt hnext
        rw [drain, drainOnto_of_some hnext, drainOnto_of_some hnext, ih _ hlt s' _ rfl,
          ih _ hlt s' [item] rfl]
        simp

theorem drain_of_none (h : s.next d = (none, s')) : (s.drain d).1 = [] := by
  rw [drain, drainOnto_of_none h]
  rfl

theorem drain_of_some {item : Item} (h : s.next d = (some item, s')) :
    (s.drain d).1 = item :: (s'.drain d).1 := by
  rw [drain, drainOnto_of_some h, drainOnto_fst]
  rfl

/-! ## Checked scans -/

theorem drainOnto?_eq_drainOnto (hd : d.Closed) (s : Scanner) (collected : List Item) :
    s.drainOnto? d collected = some (s.drainOnto d collected) := by
  fun_induction drainOnto d s collected with
  | case1 s collected s' hnext =>
    rw [drainOnto?, if_pos (isSafe_of_closed hd s)]
    split
    · rename_i heq
      rw [hnext] at heq
      rw [(Prod.mk.inj heq).2]
    · rename_i heq
      rw [hnext] at heq
      cases heq
  | case2 s collected item s' hnext ih =>
    rw [drainOnto?, if_pos (isSafe_of_closed hd s), ← ih]
    split
    · rename_i heq
      rw [hnext] at heq
      cases heq
    · rename_i heq
      rw [hnext] at heq
      obtain ⟨hitem, rfl⟩ := Prod.mk.inj heq
      rw [Option.some.inj hitem]

theorem drain?_eq_drain (hd : d.Closed) (s : Scanner) : s.drain? d = some (s.drain d) :=
  drainOnto?_eq_drainOnto hd s []

end Munch.Scanner
