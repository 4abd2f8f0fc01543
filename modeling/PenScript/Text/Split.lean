/-!
# Splitting

The pieces of a text between the occurrences of a character. There is always one piece more than
there are occurrences.
-/

set_option autoImplicit false

namespace PenScript.Split

/-- The first piece and those after it. -/
def firstAndRest (separator : Char) (text : List Char) : List Char × List (List Char) :=
  text.foldr
    (fun c (first, rest) => if c = separator then ([], first :: rest) else (c :: first, rest))
    ([], [])

def pieces (separator : Char) (text : List Char) : List (List Char) :=
  let (first, rest) := firstAndRest separator text
  first :: rest

end PenScript.Split
