import Resumable.Text.Lines

/-!
# Lines put together

No line of a text has a line feed in it (`newline_not_mem_lines`). `shownLines` are the lines of a
text as they are written: a text without lines takes up an empty one. A text hangs from the first
of them (`hang_eq`).

Texts that are joined by line feeds can be put together one by one or all at once
(`intercalate_flatten`).
-/

namespace Resumable.Text

theorem newline_not_mem_charLines {cs line : List Char} (h : line ∈ charLines cs) :
  '\n' ∉ line
  := by
  fun_induction charLines cs generalizing line with
  | case1 => cases h
  | case2 cs ih =>
      rcases List.mem_cons.mp h with rfl | h
      · apply List.not_mem_nil
      · apply ih h
  | case3 cs ih =>
      rcases List.mem_cons.mp h with rfl | h
      · apply List.not_mem_nil
      · apply ih h
  | case4 c cs _ hc _ ih =>
      rw [List.mem_singleton.mp h, List.mem_singleton]
      apply fun heq => hc heq.symm
  | case5 c cs _ hc first rest hcons ih =>
      rw [hcons] at ih
      rcases List.mem_cons.mp h with rfl | h
      · apply List.not_mem_cons_of_ne_of_not_mem (fun heq => hc heq.symm)
        apply ih List.mem_cons_self
      · apply ih (List.mem_cons_of_mem first h)

theorem newline_not_mem_lines {s line : String} (h : line ∈ lines s) :
  '\n' ∉ line.toList
  := by
  obtain ⟨cs, hcs, rfl⟩ := List.mem_map.mp h
  rw [String.toList_ofList]
  apply newline_not_mem_charLines hcs

/-- The first line of a text, empty if the text has no lines. -/
def firstLine (s : String) : String :=
  (lines s).headD ""

/-- The lines of a text behind its first one. -/
def laterLines (s : String) : List String :=
  (lines s).tail

/-- The lines of a text; a text without lines counts as one that is empty. -/
def shownLines (s : String) : List String :=
  firstLine s :: laterLines s

theorem newline_not_mem_shownLines {s line : String} (h : line ∈ shownLines s) :
  '\n' ∉ line.toList
  := by
  unfold shownLines firstLine laterLines at h
  cases hlines : lines s with
  | nil =>
      rw [hlines] at h
      rw [List.mem_singleton.mp h]
      apply List.not_mem_nil
  | cons first rest =>
      rw [hlines] at h
      apply newline_not_mem_lines
      rw [hlines]
      apply h

@[simp]
theorem toList_spaces (n : Nat) :
  (spaces n).toList = List.replicate n ' '
  := String.toList_ofList

theorem shift_cases (indent line : String) :
  line = "" ∧ shift indent line = "" ∨ shift indent line = indent ++ line
  := by
  unfold shift
  split
  case isTrue h =>
    rw [String.isEmpty_iff] at h
    exact .inl ⟨h, h⟩
  case isFalse => exact .inr rfl

/-- A text hangs from its first line. -/
theorem hang_eq (indent s : String) :
  hang indent s = "\n".intercalate (firstLine s :: (laterLines s).map (shift indent))
  := by
  unfold hang firstLine laterLines
  cases lines s with
  | nil => simp
  | cons first rest => rfl

/-- Texts that are not empty do not vanish when they are joined. -/
theorem intercalate_eq_empty_iff {separator : String} {texts : List String} (h : "" ∉ texts) :
  separator.intercalate texts = "" ↔ texts = []
  := by
  cases texts with
  | nil => simp
  | cons text texts =>
      have htext : text ≠ "" := (List.ne_and_not_mem_of_not_mem_cons h).1.symm
      cases texts with
      | nil => simp [htext]
      | cons next texts => simp [htext]

/-- Texts joined by a separator, and these joined again, are all the texts joined. -/
theorem intercalate_flatten {separator : String} {blocks : List (List String)} (h : [] ∉ blocks) :
  separator.intercalate (blocks.map separator.intercalate) = separator.intercalate blocks.flatten
  := by
  induction blocks with
  | nil => rfl
  | cons block blocks ih =>
      obtain ⟨hblock, hblocks⟩ := List.ne_and_not_mem_of_not_mem_cons h
      cases blocks with
      | nil => simp
      | cons next blocks =>
          have hflat : (next :: blocks).flatten ≠ [] := by
            rw [List.flatten_cons]
            apply List.append_ne_nil_of_left_ne_nil
            apply (List.ne_and_not_mem_of_not_mem_cons hblocks).1.symm
          calc separator.intercalate ((block :: next :: blocks).map separator.intercalate)
              = separator.intercalate block ++ separator ++
                  separator.intercalate ((next :: blocks).map separator.intercalate) :=
                String.intercalate_cons_of_ne_nil (List.cons_ne_nil _ _)
            _ = separator.intercalate block ++ separator ++
                  separator.intercalate (next :: blocks).flatten := by
                rw [ih hblocks]
            _ = separator.intercalate (block ++ (next :: blocks).flatten) :=
                (String.intercalate_append_of_ne_nil hblock.symm hflat).symm

end Resumable.Text
