/-!
# Lines

The lines of a text: `lines s` cuts `s` at its line feeds. A carriage return right before a
line feed belongs to the cut, and no empty line follows a final line feed. `hang indent s`
writes the lines of `s` again, all but the first one moved to the right by `indent`.
-/

namespace Resumable.Text

/-- The lines of a list of characters. -/
def charLines : List Char → List (List Char)
  | [] => []
  | '\r' :: '\n' :: cs => [] :: charLines cs
  | '\n' :: cs => [] :: charLines cs
  | c :: cs =>
    match charLines cs with
    | [] => [[c]]
    | line :: rest => (c :: line) :: rest

/-- The lines of a text, without their line ends. -/
def lines (s : String) : List String :=
  (charLines s.toList).map String.ofList

/-- The text made of `n` spaces. -/
def spaces (n : Nat) : String :=
  String.ofList (List.replicate n ' ')

/-- The line moved to the right by `indent`; an empty line stays empty. -/
def shift (indent line : String) : String :=
  if line.isEmpty then line else indent ++ line

/-- The lines of `s` joined by line feeds, all but the first one moved to the right by `indent`. -/
def hang (indent s : String) : String :=
  match lines s with
  | [] => ""
  | first :: rest => "\n".intercalate (first :: rest.map (shift indent))

end Resumable.Text
