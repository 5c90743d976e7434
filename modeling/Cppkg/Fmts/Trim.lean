import Mathlib.Data.List.DropRight

/-!
# Trimming, from `fmts/src/fmts.cpp`

A `std::string` is the list of its characters.
-/

set_option autoImplicit false

namespace Cppkg

/-- `std::string`. -/
abbrev Str := List Char

/-- `types::StringsT`. -/
abbrev StringsT := List Str

namespace Fmts

/-- `std::isspace` in the C locale: blank, `\t`, `\n`, `\v`, `\f` and `\r`. -/
def isspace (c : Char) : Bool := c == ' ' || (9 ≤ c.toNat && c.toNat ≤ 13)

/-- Erase everything before the first character that is not white space. -/
def ltrim (s : Str) : Str := s.dropWhile isspace

/-- Erase everything after the last character that is not white space.  The source searches the
reversed range. -/
def rtrim (s : Str) : Str := (s.reverse.dropWhile isspace).reverse

/-- Trim both sides. -/
def trim (s : Str) : Str := rtrim (ltrim s)

theorem trim_eq (s : Str) : trim s = (s.dropWhile isspace).rdropWhile isspace := rfl

end Fmts
end Cppkg
