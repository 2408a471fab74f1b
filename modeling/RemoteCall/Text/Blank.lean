/-! White space in the sense of the Unicode property, trimming, and cutting text at single
characters and at line ends. -/

namespace RemoteCall.Text

/-- The characters with the property White_Space. -/
def isBlank (c : Char) : Bool :=
  let n := c.toNat
  (9 ≤ n && n ≤ 13) || n == 0x20 || n == 0x85 || n == 0xA0 || n == 0x1680
    || (0x2000 ≤ n && n ≤ 0x200A) || n == 0x2028 || n == 0x2029 || n == 0x202F || n == 0x205F
    || n == 0x3000

/-- The characters of category Cc. -/
def isControl (c : Char) : Bool :=
  c.toNat < 0x20 || (0x7F ≤ c.toNat && c.toNat ≤ 0x9F)

variable {α : Type}

def dropEndWhile (p : α → Bool) (xs : List α) : List α :=
  (xs.reverse.dropWhile p).reverse

def dropBothWhile (p : α → Bool) (xs : List α) : List α :=
  dropEndWhile p (xs.dropWhile p)

def trim (cs : List Char) : List Char := dropBothWhile isBlank cs

def trimEnd (cs : List Char) : List Char := dropEndWhile isBlank cs

def extendHead (c : Char) : List (List Char) → List (List Char)
  | [] => [[c]]
  | piece :: rest => (c :: piece) :: rest

/-- The pieces between the occurrences of `sep`; there is one more piece than occurrences. -/
def fields (sep : Char) : List Char → List (List Char)
  | [] => [[]]
  | c :: cs => if c = sep then [] :: fields sep cs else extendHead c (fields sep cs)

def crlfLines : List Char → List (List Char)
  | [] => [[]]
  | '\r' :: '\n' :: cs => [] :: crlfLines cs
  | c :: cs => extendHead c (crlfLines cs)

def splitAt? (sep : Char) : List Char → Option (List Char × List Char)
  | [] => none
  | c :: cs =>
    if c = sep then some ([], cs)
    else (splitAt? sep cs).map fun (before, after) => (c :: before, after)

/-- Equality up to the case of the ASCII letters. -/
def sameIgnoringCase (a b : List Char) : Bool :=
  a.map Char.toLower == b.map Char.toLower

def lowercase (cs : List Char) : List Char := cs.map Char.toLower

end RemoteCall.Text
