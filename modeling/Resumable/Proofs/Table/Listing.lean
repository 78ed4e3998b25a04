import Resumable.Proofs.Code.Listing
import Resumable.Proofs.Table.Cut

/-!
# Reading listings of tables back

In the listing of a table, rows of three dashes stand between the subroutines. `Listing.sections`
cuts a text at such rows, and from the listing of a table it gets the listings of the subroutines
back (`Table.sections_listing`): no text of an operation makes a row of dashes, because the rows of
a listing begin with digits, spaces or a colon (`Code.head_of_mem_rows`).

The table of well numbered code is labelled just where its subroutines start. So the listing of a
subroutine begins with the address of its start (`Subroutine.exists_listing_eq`), which can be read
off it (`Subroutine.number_listing`).
-/

namespace Resumable

namespace Listing

/-- The parts of a text between its rows of three dashes. An empty text has no parts. -/
def sections (text : String) : List String :=
  if text = "" then [] else ((rows text).splitOn "---").map "\n".intercalate

/-- The number in front of the first colon of a text. -/
def number (text : String) : Nat :=
  Text.digitsValue (front (column text) text).toList

/-- A text is its rows, joined by line feeds. -/
theorem intercalate_rows (text : String) :
  "\n".intercalate (rows text) = text
  := by
  apply String.toList_injective
  have hrows : (rows text).map String.toList = text.toList.splitOn '\n' := by
    simp [rows]
  rw [String.toList_intercalate, hrows]
  apply List.intercalate_splitOn

theorem rows_append_newline (text text' : String) :
  rows (text ++ "\n" ++ text') = rows text ++ rows text'
  := by
  have hsplit := List.splitOn_append_cons_self (a := '\n') text.toList text'.toList
  rw [rows, rows, rows, ← List.map_append, ← hsplit]
  simp

/-- Texts with a line of dashes between them have the rows of the texts, with a row of dashes
between them. -/
theorem rows_intercalate_dashes {texts : List String} (h : texts ≠ []) :
  rows ("\n---\n".intercalate texts) = ["---"].intercalate (texts.map rows)
  := by
  induction texts with
  | nil => cases h rfl
  | cons text texts ih =>
      cases texts with
      | nil => simp
      | cons next texts =>
          have hdashes : rows "---" = ["---"] := by decide
          have hjoin : "\n---\n".intercalate (text :: next :: texts)
              = text ++ "\n" ++ ("---" ++ "\n" ++ "\n---\n".intercalate (next :: texts)) := by
            have hline : "\n---\n" = "\n" ++ "---" ++ "\n" := by decide
            rw [String.intercalate_cons_cons, hline]
            ac_rfl
          rw [hjoin, rows_append_newline, rows_append_newline, hdashes, ih (List.cons_ne_nil _ _),
            List.map_cons, List.map_cons, List.map_cons, List.intercalate_cons_cons,
            List.append_assoc]

/-- Texts without a row of dashes are found again between rows of dashes. -/
theorem sections_intercalate {texts : List String} (hempty : "" ∉ texts)
    (hdashes : ∀ text ∈ texts, "---" ∉ rows text) :
  sections ("\n---\n".intercalate texts) = texts
  := by
  by_cases h : texts = []
  · subst h
    rfl
  · have hne : "\n---\n".intercalate texts ≠ "" := mt (Text.intercalate_eq_empty_iff hempty).mp h
    have hsplit : (["---"].intercalate (texts.map rows)).splitOn "---" = texts.map rows := by
      apply List.splitOn_intercalate
      · simpa using hdashes
      · simpa using h
    have hrows : "\n".intercalate ∘ rows = id := funext intercalate_rows
    rw [sections, if_neg hne, rows_intercalate_dashes h, hsplit, List.map_map, hrows, List.map_id]

end Listing

/-! ### No row of dashes -/

/-- A row of an instruction that is not empty begins with a digit, a space or a colon. -/
theorem Instr.head_of_mem_rows {w : Nat} {instr : Instr} {row : String} {c : Char}
    (h : row ∈ instr.rows w) (hc : row.toList.head? = some c) :
  c.isDigit = true ∨ c = ' ' ∨ c = ':'
  := by
  rcases List.mem_cons.mp h with rfl | h
  · -- the label is blank or a number, and the colon is what follows
    rw [String.toList_append] at hc
    cases hlabel : (instr.entry w).label.toList with
    | nil =>
        rw [hlabel] at hc
        right; right
        simpa using hc.symm
    | cons d ds =>
        rw [hlabel] at hc
        obtain rfl : d = c := by simpa using hc
        by_contra hnot
        rw [not_or, not_or] at hnot
        have hmem : d ∉ (instr.entry w).label.toList :=
          not_mem_label (by simpa using hnot.1) hnot.2.1
        apply hmem
        rw [hlabel]
        apply List.mem_cons_self
  · rcases eq_empty_or_spaces h with rfl | ⟨line, rfl⟩
    · cases hc
    · right; left
      simpa [List.replicate_succ] using hc.symm

namespace Code

variable {code : Code}

theorem head_of_mem_rows {row : String} {c : Char} (h : code ≠ [])
    (hrow : row ∈ Listing.rows code.listing) (hc : row.toList.head? = some c) :
  c.isDigit = true ∨ c = ' ' ∨ c = ':'
  := by
  rw [rows_listing h] at hrow
  obtain ⟨_, hblock, hrow⟩ := List.mem_flatten.mp hrow
  obtain ⟨instr, -, rfl⟩ := List.mem_map.mp hblock
  apply Instr.head_of_mem_rows hrow hc

theorem dashes_not_mem_rows (h : code ≠ []) :
  "---" ∉ Listing.rows code.listing
  := by
  intro hrow
  have hdash := head_of_mem_rows h hrow (c := '-') (by decide)
  revert hdash
  decide

theorem listing_ne_empty (h : code ≠ []) :
  code.listing ≠ ""
  := by
  obtain ⟨instr, rest, rfl⟩ := List.exists_cons_of_ne_nil h
  obtain ⟨text, htext⟩ := exists_listing_cons instr rest
  rw [htext]
  simp

end Code

/-- A subroutine has at least one instruction. -/
theorem Subroutine.code_ne_nil (s : Subroutine) :
  s.code ≠ []
  := List.cons_ne_nil s.first s.rest

namespace Table

variable {table : Table}

theorem empty_not_mem_listings :
  "" ∉ table.map fun s => s.code.listing
  := by
  intro h
  obtain ⟨s, -, hs⟩ := List.mem_map.mp h
  apply Code.listing_ne_empty s.code_ne_nil hs

theorem listing_eq_empty_iff :
  table.listing = "" ↔ table = []
  := by
  rw [listing, Text.intercalate_eq_empty_iff empty_not_mem_listings, List.map_eq_nil_iff]

/-- The listings of the subroutines can be read off the listing of the table. -/
theorem sections_listing (table : Table) :
  Listing.sections table.listing = table.map fun s => s.code.listing
  := by
  apply Listing.sections_intercalate empty_not_mem_listings
  intro text htext
  obtain ⟨s, -, rfl⟩ := List.mem_map.mp htext
  apply Code.dashes_not_mem_rows s.code_ne_nil

end Table

/-! ### Labels of subroutines -/

namespace Subroutine

variable {s : Subroutine}

/-- The first instruction is labelled, and no other one. -/
def LabelledAtStart (s : Subroutine) : Prop :=
  s.first.labelled = true ∧ ∀ instr ∈ s.rest, instr.labelled = false

theorem labelWidth_code (h : s.LabelledAtStart) :
  s.code.labelWidth = Text.digitCount s.start
  := by
  apply Nat.le_antisymm
  · apply Code.labelWidth_le
    intro instr hinstr hlabelled
    rcases List.mem_cons.mp hinstr with rfl | hrest
    · apply Nat.le_refl
    · rw [h.2 instr hrest] at hlabelled
      cases hlabelled
  · apply Code.digitCount_le_labelWidth List.mem_cons_self h.1

/-- The listing begins with the start of the subroutine. -/
theorem exists_listing_eq (h : s.LabelledAtStart) :
  ∃ text, s.code.listing = toString s.start ++ (": " ++ text)
  := by
  obtain ⟨text, htext⟩ := Code.exists_listing_cons s.first s.rest
  have hwidth : Code.labelWidth (s.first :: s.rest) = Text.digitCount s.first.address :=
    labelWidth_code h
  have hlabel : (s.first.entry (Text.digitCount s.first.address)).label = toString s.start := by
    rw [Instr.entry, if_pos h.1, Nat.sub_self]
    rfl
  use text
  rw [code, htext, hwidth, hlabel]

/-- What stands in front of the first colon is the start of the subroutine. -/
theorem front_listing (h : s.LabelledAtStart) :
  Listing.front (Listing.column s.code.listing) s.code.listing = toString s.start
  := by
  obtain ⟨text, htext⟩ := exists_listing_eq h
  have hlength : (toString s.start).toList.length = Text.digitCount s.start := String.length_toList
  rw [Code.column_listing s.code_ne_nil, labelWidth_code h, htext, Listing.front,
    String.toList_append, List.take_left' hlength]
  apply String.ofList_toList

theorem number_listing (h : s.LabelledAtStart) :
  Listing.number s.code.listing = s.start
  := by
  rw [Listing.number, front_listing h, Nat.toString_eq_repr, Nat.toList_repr,
    Text.digitsValue_toDigits]

end Subroutine

namespace Code

variable {code : Code}

/-- The starts of the subroutines can be read off their listings. -/
theorem WellNumbered.map_number_listings (hcode : code.WellNumbered) :
  (code.table.map fun s => s.code.listing).map Listing.number = code.table.map Subroutine.start
  := by
  rw [List.map_map]
  apply List.map_congr_left
  intro s hs
  rw [Function.comp_apply, Subroutine.number_listing (hcode.labelled_of_mem_table hs)]

/-- Cut at its rows of three dashes, the listing of the table of well numbered code falls into the
listings of the subroutines, whatever the texts in it are, and it is empty only for empty code. In
front of its first colon, the listing of a subroutine has the address where the subroutine starts.
So tables with the same listing have equally many subroutines, with the same starts and the same
listings. -/
theorem WellNumbered.partition_listing_sections (hcode : code.WellNumbered) :
  ∃ table, code.partition = .ok table
    ∧ Listing.sections table.listing = table.map (fun s => s.code.listing)
    ∧ (table.listing = "" ↔ code = [])
    ∧ (∀ s ∈ table, (∃ text, s.code.listing = toString s.start ++ (": " ++ text))
      ∧ Listing.front (Listing.column s.code.listing) s.code.listing = toString s.start)
    ∧ ∀ (code' : Code) (table' : Table), code'.partition = .ok table' →
      table'.listing = table.listing → table'.length = table.length
        ∧ table'.map (fun s => s.code.listing) = table.map (fun s => s.code.listing)
        ∧ table'.map Subroutine.start = table.map Subroutine.start
  := by
  refine ⟨code.table, hcode.partition_eq, Table.sections_listing _, ?_, ?_, ?_⟩
  · rw [Table.listing_eq_empty_iff, hcode.cuts_table.eq_nil_iff]
  · intro s hs
    have hlabelled : s.LabelledAtStart := hcode.labelled_of_mem_table hs
    exact ⟨Subroutine.exists_listing_eq hlabelled, Subroutine.front_listing hlabelled⟩
  · intro code' table' hpartition hlisting
    obtain ⟨hcode', rfl⟩ := partition_ok_iff.mp hpartition
    have hlistings : code'.table.map (fun s => s.code.listing)
        = code.table.map (fun s => s.code.listing) := by
      rw [← Table.sections_listing, hlisting, Table.sections_listing]
    refine ⟨?_, hlistings, ?_⟩
    · simpa using congrArg List.length hlistings
    · rw [← hcode'.map_number_listings, hlistings, hcode.map_number_listings]

/-- Texts with lines of dashes, also inside a condition and next to a blank line. Code with another
line end in a text has the same listing. -/
theorem WellNumbered.partition_listing_sections_dashes :
  let code := ofOps [.action "---\n---", .suspend, .jumpIf "c\n---" .onFalse 0,
    .action "2: a\n\n---"]
  let code' := ofOps [.action "---\r\n---", .suspend, .jumpIf "c\n---" .onFalse 0,
    .action "2: a\n\n---"]
  code.WellNumbered ∧ ∃ table table', code.partition = .ok table ∧ code'.partition = .ok table'
    ∧ table.listing = "0: ---\n   ---\n : yield\n---\n2: if\n     c\n     ---\n"
      ++ "   is false, jump to 0\n : 2: a\n\n   ---"
    ∧ Listing.sections table.listing = ["0: ---\n   ---\n : yield",
      "2: if\n     c\n     ---\n   is false, jump to 0\n : 2: a\n\n   ---"]
    ∧ table'.listing = table.listing
    ∧ table'.map Subroutine.start = table.map Subroutine.start
  := by
  intro code code'
  have hcode : code.WellNumbered := by decide
  have hcode' : code'.WellNumbered := by decide
  obtain ⟨table, hpartition, hsections, -, -, hsame⟩ := partition_listing_sections hcode
  obtain rfl : code.table = table := Except.ok.inj (hcode.partition_eq.symm.trans hpartition)
  have hlisting : code'.table.listing = code.table.listing := by decide
  refine ⟨hcode, code.table, code'.table, hpartition, hcode'.partition_eq, by decide, ?_, hlisting,
    (hsame code' code'.table hcode'.partition_eq hlisting).2.2⟩
  rw [hsections]
  decide

end Code

end Resumable
