import Mathlib.Data.List.Infix
import Mathlib.Data.List.Range
import Mathlib.Data.List.Perm.Basic

/-! Ledgers of handles.

Handles are issued one after the other and closed by whoever holds them. A ledger
balances with what is held when every handle issued is held or closed, once. -/

/-- How many handles have been issued, and those that were closed, in order. -/
structure Ledger where
  issued : Nat := 0
  closed : List Nat := []

namespace Ledger

/-- The ledger after the handle `l.issued` has been given out. -/
def issue (l : Ledger) : Ledger := {l with issued := l.issued + 1}

def close (handles : List Nat) (l : Ledger) : Ledger := {l with closed := l.closed ++ handles}

def Balanced (l : Ledger) (held : List Nat) : Prop :=
  (held ++ l.closed).Perm (List.range l.issued)

/-- Every handle issued has been closed once, and no other. -/
def Settled (l : Ledger) : Prop := ∀ h, l.closed.count h = if h < l.issued then 1 else 0

variable {l : Ledger} {held held' handles : List Nat}

theorem balanced_empty : Balanced {} [] := List.Perm.refl []

theorem Balanced.perm (h : l.Balanced held) (hp : held.Perm held') : l.Balanced held' :=
  (hp.symm.append_right l.closed).trans h

theorem Balanced.issue (h : l.Balanced held) : l.issue.Balanced (l.issued :: held) := by
  show (l.issued :: (held ++ l.closed)).Perm (List.range (l.issued + 1))
  rw [List.range_succ]
  exact (h.cons l.issued).trans (List.perm_append_singleton l.issued (List.range l.issued)).symm

theorem Balanced.close (h : l.Balanced (handles ++ held)) : (l.close handles).Balanced held := by
  refine List.Perm.trans ?_ h
  show (held ++ (l.closed ++ handles)).Perm (handles ++ held ++ l.closed)
  rw [← List.append_assoc, List.append_assoc handles]
  exact List.perm_append_comm

/-- No handle is closed twice. -/
theorem Balanced.nodup (h : l.Balanced held) : l.closed.Nodup :=
  (List.nodup_append.mp (h.nodup_iff.mpr List.nodup_range)).2.1

theorem Balanced.settled_iff_nil (h : l.Balanced held) : l.Settled ↔ held = [] := by
  have hcount : ∀ n, held.count n + l.closed.count n = if n < l.issued then 1 else 0 := by
    intro n
    rw [← List.count_append, h.count_eq, List.count_range]
  constructor
  · intro hsettled
    apply List.eq_nil_iff_forall_not_mem.mpr
    intro n hn
    have hpos := List.count_pos_iff.mpr hn
    have := hcount n
    rw [hsettled n] at this
    omega
  · rintro rfl n
    have := hcount n
    rwa [List.count_nil, Nat.zero_add] at this

end Ledger
