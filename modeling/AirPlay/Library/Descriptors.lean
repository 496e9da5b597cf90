import AirPlay.Library.Ledger

/-! Descriptor tables.

What is open is named by a number that is free again once it is closed. The handles
behind the numbers are not used twice: a ledger tells which are still to be closed. -/

/-- An open handle and the descriptor that names it. -/
structure Handle where
  fd : Nat
  id : Nat
  deriving DecidableEq

/-- The table of open handles, with the ledger of those that were given out. -/
structure Descriptors where
  table : List Handle := []
  ledger : Ledger := {}

namespace Descriptors

/-- The handles that a descriptor names. -/
def refers (fd : Nat) (d : Descriptors) : List Nat := (d.table.filter (·.fd == fd)).map (·.id)

def isFree (fd : Nat) (d : Descriptors) : Bool := d.table.all (·.fd != fd)

/-- The handle that is given out next. -/
def next (fd : Nat) (d : Descriptors) : Handle := ⟨fd, d.ledger.issued⟩

def take (fd : Nat) (d : Descriptors) : Descriptors := ⟨d.next fd :: d.table, d.ledger.issue⟩

def close (fd : Nat) (d : Descriptors) : Descriptors :=
  ⟨d.table.filter (·.fd != fd), d.ledger.close (d.refers fd)⟩

/-- What is open is held, under a descriptor of its own each. -/
structure Holds (d : Descriptors) (held : List Handle) : Prop where
  perm : d.table.Perm held
  distinct : (held.map (·.fd)).Nodup
  balanced : d.ledger.Balanced (held.map (·.id))

theorem holds_empty : Holds {} [] := ⟨List.Perm.refl [], List.nodup_nil, Ledger.balanced_empty⟩

variable {d : Descriptors} {h : Handle} {held held' : List Handle}

theorem Holds.change (hd : d.Holds held) (hp : held.Perm held') : d.Holds held' :=
  ⟨hd.perm.trans hp, (hp.map _).nodup_iff.mp hd.distinct, hd.balanced.perm (hp.map _)⟩

theorem Holds.free {fd : Nat} (hd : d.Holds held) (hfree : d.isFree fd) :
    fd ∉ held.map (·.fd) := by
  intro hmem
  obtain ⟨h, hh, rfl⟩ := List.mem_map.mp hmem
  have hne := List.all_eq_true.mp hfree h (hd.perm.mem_iff.mpr hh)
  simp at hne

theorem Holds.take {fd : Nat} (hd : d.Holds held) (hfree : d.isFree fd) :
    (d.take fd).Holds (d.next fd :: held) :=
  ⟨hd.perm.cons _, List.nodup_cons.mpr ⟨hd.free hfree, hd.distinct⟩, hd.balanced.issue⟩

/-- No other handle has the descriptor of one that is held. -/
theorem Holds.others (hd : d.Holds (h :: held)) : ∀ h' ∈ held, h'.fd ≠ h.fd := by
  intro h' hh' heq
  exact (List.nodup_cons.mp hd.distinct).1 (List.mem_map.mpr ⟨h', hh', heq⟩)

theorem Holds.refers_eq (hd : d.Holds (h :: held)) : d.refers h.fd = [h.id] := by
  have hothers : held.filter (·.fd == h.fd) = [] :=
    List.filter_eq_nil_iff.mpr fun h' hh' => by simpa using hd.others h' hh'
  have hperm := hd.perm.filter (·.fd == h.fd)
  simp only [List.filter_cons, beq_self_eq_true, if_true, hothers] at hperm
  rw [refers, List.perm_singleton.mp hperm]
  rfl

theorem Holds.refers_mem (hd : d.Holds held) (hh : h ∈ held) : d.refers h.fd = [h.id] :=
  (hd.change (List.perm_cons_erase hh)).refers_eq

/-- Among what is held, what is not named by the descriptor is what is not the handle. -/
theorem Holds.filter_others {l : List Handle} (hd : d.Holds (h :: held)) (hl : l ⊆ held) :
    (h :: l).filter (·.fd != h.fd) = l := by
  have hothers : l.filter (·.fd != h.fd) = l :=
    List.filter_eq_self.mpr fun h' hh' => by simpa using hd.others h' (hl hh')
  simp only [List.filter_cons, bne_self_eq_false, Bool.false_eq_true, if_false, hothers]

theorem Holds.close (hd : d.Holds (h :: held)) : (d.close h.fd).Holds held := by
  refine ⟨?_, (List.nodup_cons.mp hd.distinct).2, ?_⟩
  · have hperm := hd.perm.filter (·.fd != h.fd)
    rw [hd.filter_others (List.Subset.refl held)] at hperm
    exact hperm
  · show (d.ledger.close (d.refers h.fd)).Balanced (held.map (·.id))
    rw [hd.refers_eq]
    exact @Ledger.Balanced.close _ _ [h.id] hd.balanced

end Descriptors
