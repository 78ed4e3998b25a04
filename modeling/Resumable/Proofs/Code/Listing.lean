import Resumable.Code.Listing
import Resumable.Proofs.Text.Decimal
import Resumable.Proofs.Text.Lines
import Mathlib.Data.List.SplitBy
import Mathlib.Data.List.Pairwise

/-!
# Reading listings back

A listing has a column of labels that ends with its first colon. `Listing.entries` cuts the rows of
a text before each row with a colon in that column, and takes the column off. From the listing of
code it gets the instructions one by one, with their labels and all lines of their texts
(`Code.entries_listing`): no text of an operation can be taken for a label, because its lines stand
behind the column (`Instr.isBlock_rows`).
-/

namespace Resumable

namespace Listing

variable {w : Nat}

/-- The position of the first colon of a text. -/
def column (text : String) : Nat :=
  text.toList.idxOf ':'

/-- The rows of a text, which is cut at its line feeds. -/
def rows (text : String) : List String :=
  (text.toList.splitOn '\n').map String.ofList

/-- The row has a colon at position `w`. -/
def opens (w : Nat) (row : String) : Bool :=
  row.toList[w]? == some ':'

/-- The rows of a text, cut before each row with a colon where the first row has its first one. -/
def blocks (text : String) : List (List String) :=
  (rows text).splitBy fun _ row => !opens (column text) row

/-- What is listed of an instruction: its label and the lines behind it. -/
@[ext]
structure Entry where
  /-- The column of the label, with its blanks. -/
  label : String
  /-- The lines behind the column. -/
  lines : List String
deriving DecidableEq, Repr

/-- The part of a row in front of position `w`. -/
def front (w : Nat) (row : String) : String :=
  String.ofList (row.toList.take w)

/-- The part of a row behind position `w` and the character that follows. -/
def behind (w : Nat) (row : String) : String :=
  String.ofList (row.toList.drop (w + 2))

/-- The entry that takes up a block of rows, with a colon at position `w` and a space behind it. -/
def Entry.ofBlock (w : Nat) (block : List String) : Entry where
  label := front w (block.headD "")
  lines := block.map (behind w)

/-- The entries of a listing. -/
def entries (text : String) : List Entry :=
  (blocks text).map (Entry.ofBlock (column text))

/-- The number that the label spells behind its blanks, if it is not blank. -/
def Entry.number? (entry : Entry) : Option Nat :=
  let ds := entry.label.toList.dropWhile (· == ' ')
  if ds = [] then none else some (Text.digitsValue ds)

/-- The numbers and the lines that a listing shows. -/
def read (text : String) : List (Option Nat × List String) :=
  (entries text).map fun entry => (entry.number?, entry.lines)

/-! ### Blocks -/

/-- The first row, and no other one, has a colon at position `w`. -/
def IsBlock (w : Nat) (block : List String) : Prop :=
  ∃ first rest, block = first :: rest ∧ opens w first = true ∧ ∀ row ∈ rest, opens w row = false

theorem IsBlock.ne_nil {block : List String} (h : IsBlock w block) :
  block ≠ []
  := by
  obtain ⟨first, rest, rfl, -⟩ := h
  apply List.cons_ne_nil

theorem IsBlock.opens_head {block : List String} (h : IsBlock w block) :
  opens w (block.head h.ne_nil) = true
  := by
  obtain ⟨first, rest, rfl, hfirst, -⟩ := h
  apply hfirst

theorem IsBlock.countP_opens {block : List String} (h : IsBlock w block) :
  block.countP (opens w) = 1
  := by
  obtain ⟨first, rest, rfl, hfirst, hrest⟩ := h
  rw [List.countP_cons_of_pos hfirst, List.countP_eq_zero.mpr (by simpa using hrest)]

theorem IsBlock.isChain {block : List String} (h : IsBlock w block) :
  block.IsChain fun _ row => !opens w row
  := by
  obtain ⟨first, rest, rfl, -, hrest⟩ := h
  apply List.Pairwise.isChain
  rw [List.pairwise_cons]
  constructor
  · intro row hrow
    rw [hrest row hrow, Bool.not_false]
  · apply List.pairwise_of_forall_mem_list
    intro _ _ row hrow
    rw [hrest row hrow, Bool.not_false]

/-- Blocks put one after another are found again. -/
theorem splitBy_flatten {blocks : List (List String)} (h : ∀ block ∈ blocks, IsBlock w block) :
  blocks.flatten.splitBy (fun _ row => !opens w row) = blocks
  := by
  apply List.splitBy_flatten
  · intro hnil
    apply (h [] hnil).ne_nil rfl
  · intro block hblock
    apply (h block hblock).isChain
  · apply List.Pairwise.isChain
    apply List.pairwise_of_forall_mem_list
    intro block hblock next hnext
    use (h block hblock).ne_nil, (h next hnext).ne_nil
    rw [(h next hnext).opens_head, Bool.not_true]

theorem countP_opens_flatten {blocks : List (List String)} (h : ∀ block ∈ blocks, IsBlock w block) :
  blocks.flatten.countP (opens w) = blocks.length
  := by
  induction blocks with
  | nil => rfl
  | cons block blocks ih =>
      obtain ⟨hblock, hblocks⟩ := List.forall_mem_cons.mp h
      rw [List.flatten_cons, List.countP_append, hblock.countP_opens, ih hblocks, List.length_cons,
        Nat.add_comm]

/-- Lines without line feeds are the rows of the text they are joined to. -/
theorem rows_intercalate {lines : List String} (hne : lines ≠ [])
    (h : ∀ line ∈ lines, '\n' ∉ line.toList) :
  rows ("\n".intercalate lines) = lines
  := by
  have hsplit : ("\n".toList.intercalate (lines.map String.toList)).splitOn '\n'
      = lines.map String.toList := by
    apply List.splitOn_intercalate
    · simpa using h
    · simpa using hne
  rw [rows, String.toList_intercalate, hsplit]
  simp

end Listing

/-! ### Rows of an instruction -/

namespace Instr

variable {w : Nat} {instr : Instr} {c : Char}

/-- The address of a labelled instruction. -/
def label? (instr : Instr) : Option Nat :=
  if instr.labelled then some instr.address else none

/-- The entry of an instruction in a listing with a column of width `w`: its address, if it is
labelled, stands at the right end of the column. -/
def entry (w : Nat) (instr : Instr) : Listing.Entry where
  label :=
    if instr.labelled then
      Text.spaces (w - Text.digitCount instr.address) ++ toString instr.address
    else
      Text.spaces w
  lines := Text.shownLines instr.op.text

/-- What a listing shows of an instruction: the address, if it is labelled, and the lines. -/
def shown (instr : Instr) : Option Nat × List String :=
  (instr.label?, Text.shownLines instr.op.text)

/-- The digits of the address of a labelled instruction. -/
def digits (instr : Instr) : List Char :=
  if instr.labelled then Nat.toDigits 10 instr.address else []

theorem not_mem_digits (hdigit : c.isDigit = false) :
  c ∉ instr.digits
  := by
  unfold digits
  split
  · apply Text.not_mem_toDigits hdigit
  · apply List.not_mem_nil

theorem toList_label :
  (instr.entry w).label.toList = instr.digits.leftpad w ' '
  := by
  unfold entry digits
  split
  · simp [List.leftpad, Text.digitCount_eq]
  · simp [List.leftpad]

theorem labelText_eq :
  instr.labelText w = (instr.entry w).label
  := by
  apply String.toList_injective
  rw [toList_label, labelText, Text.alignRight, digits]
  split <;> simp

/-- The label is as wide as its column if the address fits in there. -/
theorem length_label (h : instr.labelled = true → Text.digitCount instr.address ≤ w) :
  (instr.entry w).label.toList.length = w
  := by
  rw [toList_label, List.length_leftpad, digits]
  split
  case isTrue hlabelled =>
    rw [← Text.digitCount_eq]
    apply Nat.max_eq_left (h hlabelled)
  case isFalse =>
    apply Nat.max_eq_left (Nat.zero_le w)

theorem not_mem_label (hdigit : c.isDigit = false) (hspace : c ≠ ' ') :
  c ∉ (instr.entry w).label.toList
  := by
  rw [toList_label, List.leftpad, List.mem_append, List.mem_replicate, not_or]
  constructor
  · rintro ⟨-, rfl⟩
    apply hspace rfl
  · apply not_mem_digits hdigit

theorem dropWhile_label :
  (instr.entry w).label.toList.dropWhile (· == ' ') = instr.digits
  := by
  rw [toList_label, List.leftpad, List.dropWhile_append_of_pos (by simp)]
  have hspace : ' ' ∉ instr.digits := not_mem_digits (by decide)
  cases hdigits : instr.digits with
  | nil => rfl
  | cons d ds =>
      rw [hdigits] at hspace
      apply List.dropWhile_cons_of_neg
      simpa using (List.ne_and_not_mem_of_not_mem_cons hspace).1.symm

/-- The address of a labelled instruction can be read off its label. -/
theorem number?_entry :
  (instr.entry w).number? = instr.label?
  := by
  rw [Listing.Entry.number?, dropWhile_label, digits, label?]
  split
  · rw [if_neg Nat.toDigits_ne_nil, Text.digitsValue_toDigits]
  · rfl

/-- The rows that an instruction takes up in a listing with a column of width `w`. -/
def rows (w : Nat) (instr : Instr) : List String :=
  ((instr.entry w).label ++ (": " ++ Text.firstLine instr.op.text)) ::
    (Text.laterLines instr.op.text).map (Text.shift (Text.spaces (w + 2)))

theorem listing_eq :
  instr.listing w = "\n".intercalate (instr.rows w)
  := by
  rw [listing, rows, labelText_eq, Text.hang_eq, String.intercalate_cons_append,
    String.intercalate_cons_append, String.append_assoc]

theorem newline_not_mem_rows {row : String} (h : row ∈ instr.rows w) :
  '\n' ∉ row.toList
  := by
  have hlines : ∀ line ∈ Text.shownLines instr.op.text, '\n' ∉ line.toList :=
    fun _ => Text.newline_not_mem_shownLines
  obtain ⟨hfirst, hrest⟩ := List.forall_mem_cons.mp hlines
  rcases List.mem_cons.mp h with rfl | h
  · have hlabel : '\n' ∉ (instr.entry w).label.toList := not_mem_label (by decide) (by decide)
    simp [hlabel, hfirst]
  · obtain ⟨line, hline, rfl⟩ := List.mem_map.mp h
    rcases Text.shift_cases (Text.spaces (w + 2)) line with ⟨-, hshift⟩ | hshift
    · simp [hshift]
    · simp [hshift, hrest line hline]

variable {line : String}

theorem opens_label (h : (instr.entry w).label.toList.length = w) :
  Listing.opens w ((instr.entry w).label ++ (": " ++ line)) = true
  := by
  rw [Listing.opens, String.toList_append, List.getElem?_append_right (Nat.le_of_eq h), h]
  simp

theorem opens_empty :
  Listing.opens w "" = false
  := rfl

/-- A line behind the column of labels has no colon at its end. -/
theorem opens_spaces :
  Listing.opens w (Text.spaces (w + 2) ++ line) = false
  := by
  rw [Listing.opens, String.toList_append, Text.toList_spaces,
    List.getElem?_append_left (by simp), List.getElem?_replicate_of_lt (by omega)]
  decide

/-- A row that does not begin with a label is empty or stands behind the column of labels. -/
theorem eq_empty_or_spaces {row : String}
    (h : row ∈ (Text.laterLines instr.op.text).map (Text.shift (Text.spaces (w + 2)))) :
  row = "" ∨ ∃ line, row = Text.spaces (w + 2) ++ line
  := by
  obtain ⟨line, -, rfl⟩ := List.mem_map.mp h
  rcases Text.shift_cases (Text.spaces (w + 2)) line with ⟨-, hshift⟩ | hshift
  · exact .inl hshift
  · exact .inr ⟨line, hshift⟩

theorem isBlock_rows (h : (instr.entry w).label.toList.length = w) :
  Listing.IsBlock w (instr.rows w)
  := by
  refine ⟨_, _, rfl, opens_label h, ?_⟩
  intro row hrow
  rcases eq_empty_or_spaces hrow with rfl | ⟨line, rfl⟩
  · apply opens_empty
  · apply opens_spaces

theorem front_label (h : (instr.entry w).label.toList.length = w) :
  Listing.front w ((instr.entry w).label ++ (": " ++ line)) = (instr.entry w).label
  := by
  simp [Listing.front, List.take_left' h]

theorem behind_label (h : (instr.entry w).label.toList.length = w) :
  Listing.behind w ((instr.entry w).label ++ (": " ++ line)) = line
  := by
  simp [Listing.behind, ← List.drop_drop, List.drop_left' h]

theorem behind_comp_shift :
  Listing.behind w ∘ Text.shift (Text.spaces (w + 2)) = id
  := by
  funext line
  rw [Function.comp_apply, Listing.behind, id_eq]
  rcases Text.shift_cases (Text.spaces (w + 2)) line with ⟨hline, hshift⟩ | hshift
  · rw [hshift, hline]
    simp
  · rw [hshift]
    simp

/-- The entry of an instruction can be read off its rows. -/
theorem ofBlock_rows (h : (instr.entry w).label.toList.length = w) :
  Listing.Entry.ofBlock w (instr.rows w) = instr.entry w
  := by
  ext1
  · rw [Listing.Entry.ofBlock, rows, List.headD_cons, front_label h]
  · rw [Listing.Entry.ofBlock, rows, List.map_cons, behind_label h, List.map_map, behind_comp_shift,
      List.map_id]
    rfl

end Instr

/-! ### Listings of code -/

namespace Code

variable {code : Code} {instr : Instr}

theorem digitCount_le_labelWidth (h : instr ∈ code) (hlabelled : instr.labelled = true) :
  Text.digitCount instr.address ≤ code.labelWidth
  := by
  rw [labelWidth, List.foldl_max]
  refine Nat.le_trans ?_ (Nat.le_max_right _ _)
  apply List.le_max?_getD_of_mem
  apply List.mem_map.mpr
  use instr, h
  rw [if_pos hlabelled]

theorem labelWidth_le {w : Nat}
    (h : ∀ instr ∈ code, instr.labelled = true → Text.digitCount instr.address ≤ w) :
  code.labelWidth ≤ w
  := by
  apply List.foldlRecOn (motive := (· ≤ w)) _ _ (Nat.zero_le w)
  intro width hwidth _ hmem
  obtain ⟨instr, hinstr, rfl⟩ := List.mem_map.mp hmem
  rw [Nat.max_le]
  use hwidth
  split
  case isTrue hlabelled => apply h instr hinstr hlabelled
  case isFalse => apply Nat.zero_le

theorem length_label_of_mem (h : instr ∈ code) :
  (instr.entry code.labelWidth).label.toList.length = code.labelWidth
  := Instr.length_label (digitCount_le_labelWidth h)

theorem isBlock_rows {block : List String} (h : block ∈ code.map (Instr.rows code.labelWidth)) :
  Listing.IsBlock code.labelWidth block
  := by
  obtain ⟨instr, hinstr, rfl⟩ := List.mem_map.mp h
  apply Instr.isBlock_rows (length_label_of_mem hinstr)

theorem listing_eq :
  code.listing = "\n".intercalate (code.map (Instr.rows code.labelWidth)).flatten
  := by
  have hrows : [] ∉ code.map (Instr.rows code.labelWidth) := by
    simp [Instr.rows]
  have hlisting : Instr.listing code.labelWidth = "\n".intercalate ∘ Instr.rows code.labelWidth :=
    funext fun _ => Instr.listing_eq
  rw [← Text.intercalate_flatten hrows, List.map_map, ← hlisting]
  rfl

theorem rows_listing (h : code ≠ []) :
  Listing.rows code.listing = (code.map (Instr.rows code.labelWidth)).flatten
  := by
  rw [listing_eq]
  apply Listing.rows_intercalate
  · simpa [Instr.rows] using List.exists_mem_of_ne_nil code h
  · intro row hrow
    obtain ⟨_, hblock, hrow⟩ := List.mem_flatten.mp hrow
    obtain ⟨instr, -, rfl⟩ := List.mem_map.mp hblock
    apply Instr.newline_not_mem_rows hrow

/-- A listing begins with the label of its first instruction. -/
theorem exists_listing_cons (instr : Instr) (rest : Code) :
  ∃ text, listing (instr :: rest)
    = (instr.entry (labelWidth (instr :: rest))).label ++ (": " ++ text)
  := by
  rw [listing_eq, List.map_cons, List.flatten_cons, Instr.rows, List.cons_append,
    String.intercalate_cons_append, String.intercalate_cons_append]
  exact ⟨_, rfl⟩

theorem column_listing (h : code ≠ []) :
  Listing.column code.listing = code.labelWidth
  := by
  obtain ⟨instr, rest, rfl⟩ := List.exists_cons_of_ne_nil h
  obtain ⟨text, htext⟩ := exists_listing_cons instr rest
  have hlength := length_label_of_mem (List.mem_cons_self (a := instr) (l := rest))
  have hcolon : ':' ∉ (instr.entry (labelWidth (instr :: rest))).label.toList :=
    Instr.not_mem_label (by decide) (by decide)
  rw [htext, Listing.column, String.toList_append, List.idxOf_append_of_notMem hcolon, hlength]
  simp

theorem blocks_listing (h : code ≠ []) :
  Listing.blocks code.listing = code.map (Instr.rows code.labelWidth)
  := by
  rw [Listing.blocks, column_listing h, rows_listing h]
  apply Listing.splitBy_flatten
  intro block
  apply isBlock_rows

/-- The instructions are read off the listing one by one. -/
theorem entries_listing (h : code ≠ []) :
  Listing.entries code.listing = code.map (Instr.entry (Listing.column code.listing))
  := by
  rw [Listing.entries, blocks_listing h, column_listing h, List.map_map]
  apply List.map_congr_left
  intro instr hinstr
  apply Instr.ofBlock_rows (length_label_of_mem hinstr)

/-- Each instruction takes up one row with a colon behind the column of labels. -/
theorem countP_opens_listing (code : Code) :
  (Listing.rows code.listing).countP (Listing.opens (Listing.column code.listing)) = code.length
  := by
  by_cases h : code = []
  · subst h
    rfl
  · rw [column_listing h, rows_listing h, Listing.countP_opens_flatten fun _ => isBlock_rows,
      List.length_map]

theorem eq_empty_or_spaces_of_mem_rows {row : String} (h : code ≠ [])
    (hrow : row ∈ Listing.rows code.listing)
    (hopens : Listing.opens (Listing.column code.listing) row = false) :
  row = "" ∨ ∃ line, row = Text.spaces (Listing.column code.listing + 2) ++ line
  := by
  rw [column_listing h] at hopens ⊢
  rw [rows_listing h] at hrow
  obtain ⟨_, hblock, hrow⟩ := List.mem_flatten.mp hrow
  obtain ⟨instr, hinstr, rfl⟩ := List.mem_map.mp hblock
  rcases List.mem_cons.mp hrow with rfl | hrow
  · rw [Instr.opens_label (length_label_of_mem hinstr)] at hopens
    cases hopens
  · apply Instr.eq_empty_or_spaces hrow

theorem read_listing (h : code ≠ []) :
  Listing.read code.listing = code.map Instr.shown
  := by
  rw [Listing.read, entries_listing h, List.map_map]
  apply List.map_congr_left
  intro instr _
  rw [Function.comp_apply, Instr.number?_entry]
  rfl

/-- Code with the same listing has the same labels and the same texts. -/
theorem map_shown_eq {code' : Code} (h : code.listing = code'.listing) :
  code.map Instr.shown = code'.map Instr.shown
  := by
  -- the count holds of empty code too, whose listing has no colon to read it by
  have hlength : code.length = code'.length := by
    rw [← countP_opens_listing code, h, countP_opens_listing]
  by_cases hcode : code = []
  · subst hcode
    rw [List.length_eq_zero_iff.mp hlength.symm]
  · have hcode' : code' ≠ [] := by
      rintro rfl
      apply hcode (List.length_eq_zero_iff.mp hlength)
    rw [← read_listing hcode, h, read_listing hcode']

/-- A listing can be read back, whatever the texts in it are. The position of its first colon is the
width of its column of labels; as many rows as there are instructions have a colon there, and all
other rows are empty or leave the column blank. Cut before the rows with a colon there, the listing
falls into the instructions, each with its label and its lines. So code with the same listing
agrees, instruction by instruction, on what is labelled, on the labels and on the lines. -/
theorem listing_reads_back :
  (∀ code : Code, code ≠ [] →
    let w := Listing.column code.listing
    (Listing.rows code.listing).countP (Listing.opens w) = code.length ∧
    (∀ row ∈ Listing.rows code.listing, Listing.opens w row = false →
      row = "" ∨ ∃ line, row = Text.spaces (w + 2) ++ line) ∧
    (∀ instr ∈ code, instr.labelled = true → Text.digitCount instr.address ≤ w) ∧
    Listing.entries code.listing = code.map (Instr.entry w)) ∧
  ∀ code code' : Code, code.listing = code'.listing →
    code.map Instr.shown = code'.map Instr.shown
  := by
  constructor
  · intro code h w
    refine ⟨countP_opens_listing code, fun _ => eq_empty_or_spaces_of_mem_rows h, ?_,
      entries_listing h⟩
    intro instr hinstr hlabelled
    rw [show w = code.labelWidth from column_listing h]
    apply digitCount_le_labelWidth hinstr hlabelled
  · intro code code'
    apply map_shown_eq

/-- Texts that look like rows of a listing, a blank line, a condition with several lines and a text
without lines. Two other pieces of code, with the same listing, differ in an address without a label
and in a line end. -/
theorem listing_reads_back_lookalike :
  let code : Code :=
    [⟨3, .action "3: jump 4\n\n: 12", false⟩, ⟨12, .jumpIf "a\nb: c" .onFalse 3, true⟩,
      ⟨7, .action "", true⟩]
  let hidden : Code := [⟨1, .action "a\r\nb", false⟩]
  let hidden' : Code := [⟨2, .action "a\nb", false⟩]
  code.listing
    = "  : 3: jump 4\n\n    : 12\n12: if\n      a\n      b: c\n    is false, jump to 3\n 7: "
  ∧ Listing.entries code.listing =
      [⟨"  ", ["3: jump 4", "", ": 12"]⟩,
        ⟨"12", ["if", "  a", "  b: c", "is false, jump to 3"]⟩, ⟨" 7", [""]⟩]
  ∧ hidden.listing = hidden'.listing
  ∧ hidden.map Instr.shown = hidden'.map Instr.shown
  := by
  intro code hidden hidden'
  have hcode := listing_reads_back.1 code (by decide)
  have hsame : hidden.listing = hidden'.listing := by decide
  refine ⟨by decide, ?_, hsame, listing_reads_back.2 hidden hidden' hsame⟩
  rw [hcode.2.2.2]
  decide

end Code

end Resumable
