/-!
# Comparison without regard to case

The keywords of system query options and the words `max`, `true`, `false` and `null` may be written
in any mixture of upper and lower case.  Only the ASCII letters have a case here.
-/

namespace ODataOptions.Text

/-- The characters of a text with every ASCII capital letter made small. -/
def folded (text : String) : List Char := text.toList.map Char.toLower

/-- Whether two texts differ at most in the case of ASCII letters. -/
def sameWord (left right : String) : Bool := folded left = folded right

end ODataOptions.Text
