import Resumable.Machine
import Resumable.Proofs.Process.Runs
import Resumable.Proofs.Table.Contents

/-!
# Execution of code

Code is a program in its own right, without being cut into subroutines. `Code.exec` runs it with
a counter that is a position in the code, and `Code.next` is the same program as a process
(`exec_eq`). In well numbered code the counter never gets behind the end, and the table of the
code is the same process (`WellNumbered.next_table`).
-/

universe u

namespace Resumable

/-- Where to go on after a run that stopped. -/
def Counter.ofStop : Process.Stop Nat → Counter
  | .ended _ => .done
  | .suspended address => .ready address

/-- What a resume led to that left the counter like this. -/
def Counter.resumption : Counter → Resumption
  | .done => .completed
  | .ready _ => .suspended

namespace Code

variable {σ : Type u}

/-- The process that runs through the code from position to position. -/
def next (code : Code) : Process Nat := fun position =>
  match code[position]? with
  | none => if position = code.length then .finish else .stray
  | some instr => instr.op.request position

/-- Runs the code from a position on, up to its next suspension or its end, and tells where to go
on. The run has no result if it comes to a position that is not in the code. -/
def exec (code : Code) (host : Host σ) : Nat → Nat → σ → Option (Counter × σ)
  | 0, _, _ => none
  | fuel + 1, position, s =>
    if position = code.length then some (.done, s)
    else
      match code[position]? with
      | none => none
      | some instr =>
        match instr.op with
        | .action text => exec code host fuel (position + 1) (host.perform text s)
        | .suspend => some (.ready (position + 1), host.suspend s)
        | .noop => exec code host fuel (position + 1) s
        | .jumpIf cond polarity target =>
          let answer := host.evaluate cond s
          exec code host fuel (if polarity.accepts answer.1 then target else position + 1) answer.2
        | .jump target => exec code host fuel target s

variable {code : Code} {host : Host σ} {position position' : Nat} {s s' : σ}

theorem next_of_getElem? {instr : Instr} (h : code[position]? = some instr) :
  code.next position = instr.op.request position
  := by
  simp only [next, h]

@[simp]
theorem next_length (code : Code) :
  code.next code.length = .finish
  := by
  simp [next]

/-- An operation leads to the next address or to the target of its jump. -/
theorem leadsTo_request {op : Op} (h : (op.request position).LeadsTo position') :
  position' = position + 1 ∨ op.target? = some position'
  := by
  cases op with
  | action text =>
      left
      apply h.symm
  | suspend =>
      left
      apply h.symm
  | noop =>
      left
      apply h.symm
  | jump target =>
      right
      apply congrArg some h
  | jumpIf cond polarity target =>
      obtain ⟨holds, h⟩ := h
      dsimp only at h
      split at h
      · right
        apply congrArg some h
      · left
        apply h.symm

theorem exists_getElem?_of_leadsTo (h : (code.next position).LeadsTo position') :
  ∃ instr, code[position]? = some instr ∧ (instr.op.request position).LeadsTo position'
  := by
  unfold next at h
  cases hinstr : code[position]? with
  | none =>
      simp only [hinstr] at h
      split at h
      · exact h.elim
      · exact h.elim
  | some instr =>
      simp only [hinstr] at h
      use instr, rfl, h

/-- A run of well numbered code stays in the code or gets right behind it. -/
theorem WellNumbered.le_of_leadsTo (hcode : code.WellNumbered)
    (h : (code.next position).LeadsTo position') :
  position' ≤ code.length
  := by
  obtain ⟨instr, hinstr, hleads⟩ := exists_getElem?_of_leadsTo h
  rcases leadsTo_request hleads with rfl | htarget
  · apply (List.getElem?_eq_some_iff.mp hinstr).1
  · apply Nat.le_of_lt
    apply (hcode position instr hinstr).2 position' htarget

/-- The table of well numbered code is the same process as the code. -/
theorem WellNumbered.next_table (hcode : code.WellNumbered) :
  code.table.next = code.next
  := by
  funext position
  unfold Table.next next
  rw [hcode.stop_table, hcode.fetch?_table, getElem?_label]
  cases hinstr : code[position]? with
  | none => rfl
  | some instr =>
      have hlt := (List.getElem?_eq_some_iff.mp hinstr).1
      rw [if_neg (Nat.ne_of_lt hlt)]
      rfl

/-- The run of well numbered code is that of its process. -/
theorem WellNumbered.exec_eq (hcode : code.WellNumbered) (hle : position ≤ code.length)
    (fuel : Nat) (s : σ) :
  code.exec host fuel position s
    = (Process.advance code.next host fuel position s).map
        fun result => (Counter.ofStop result.1, result.2)
  := by
  induction fuel generalizing position s with
  | zero => rfl
  | succ fuel ih =>
      rw [exec, Process.advance]
      by_cases heq : position = code.length
      · rw [if_pos heq, heq, next_length]
        rfl
      · have hlt : position < code.length := by omega
        obtain ⟨instr, hinstr⟩ : ∃ instr, code[position]? = some instr :=
          ⟨_, List.getElem?_eq_getElem hlt⟩
        have hleads : ∀ b, (instr.op.request position).LeadsTo b → b ≤ code.length := by
          intro b hb
          rw [← next_of_getElem? hinstr] at hb
          apply hcode.le_of_leadsTo hb
        rw [if_neg heq, hinstr, next_of_getElem? hinstr]
        obtain ⟨address, op, labelled⟩ := instr
        cases op with
        | action text => apply ih (hleads _ rfl)
        | suspend => rfl
        | noop => apply ih (hleads _ rfl)
        | jump target => apply ih (hleads _ rfl)
        | jumpIf cond polarity target => apply ih (hleads _ ⟨_, rfl⟩)

/-- A run of well numbered code never leaves the code. -/
theorem WellNumbered.ending_eq_finished (hcode : code.WellNumbered) (hle : position ≤ code.length)
    {calls : List Call} {ending : Process.Ending} {t : σ}
    (h : Process.Advances code.next host position s calls (.ended ending) t) :
  ending = .finished
  := by
  generalize hstop : Process.Stop.ended ending = stop at h
  induction h with
  | finish _ =>
      cases hstop
      rfl
  | @stray position s hstray =>
      by_cases heq : position = code.length
      · rw [heq, next_length] at hstray
        cases hstray
      · have hlt : position < code.length := by omega
        rw [next_of_getElem? (List.getElem?_eq_getElem hlt)] at hstray
        generalize code[position].op = op at hstray
        cases op with
        | action text => cases hstray
        | suspend => cases hstray
        | noop => cases hstray
        | jumpIf cond polarity target => cases hstray
        | jump target => cases hstray
  | suspend _ => cases hstop
  | move hmove _ ih => apply ih (hcode.le_of_leadsTo hmove.leadsTo) hstop

/-- A run that suspended goes on right behind a suspension. -/
theorem exists_suspend_of_advances {calls : List Call} {t : σ}
    (h : Process.Advances code.next host position s calls (.suspended position') t) :
  ∃ before instr, code[before]? = some instr ∧ instr.op = .suspend ∧ position' = before + 1
  := by
  obtain ⟨before, hbefore⟩ := h.exists_suspend
  have hleads : (code.next before).LeadsTo position' := by
    rw [hbefore]
    rfl
  obtain ⟨instr, hinstr, -⟩ := exists_getElem?_of_leadsTo hleads
  rw [next_of_getElem? hinstr] at hbefore
  refine ⟨before, instr, hinstr, ?_⟩
  generalize instr.op = op at hbefore
  cases op with
  | suspend =>
      cases hbefore
      exact ⟨rfl, rfl⟩
  | action text => cases hbefore
  | noop => cases hbefore
  | jump target => cases hbefore
  | jumpIf cond polarity target => cases hbefore

end Code

end Resumable
