import Goblet.Text.Class

/-!
# Upper and lower case

The full case mappings: a character may have an image of several characters, and a capital sigma that ends a word
has a lower case of its own. Single images are listed as runs of equally spaced code points with one shift, and those
that are in no such run as pairs.
-/

namespace Goblet.LetterCase

/-- The code points `lo, lo + step, …, hi`, each with the image `shift` further on. -/
structure Run where
  lo : Nat
  hi : Nat
  step : Nat
  shift : Int

def Run.image? (r : Run) (c : Nat) : Option Nat :=
  if r.lo ≤ c ∧ c ≤ r.hi ∧ (c - r.lo) % r.step = 0 then some (Int.toNat (c + r.shift)) else none

def Run.back (r : Run) : Run := ⟨Int.toNat (r.lo + r.shift), Int.toNat (r.hi + r.shift), r.step, -r.shift⟩

/-- The image of a character in a list where each character stands before its image. -/
def imageIn? : List Char → Char → Option Char
  | a :: b :: cs, c => if a = c then some b else imageIn? cs c
  | _, _ => none

/-- What has images: runs, pairs of a character and its image, runs with a capital iota behind the image, and characters
with an image of several. -/
structure Images where
  runs : List Run
  pairs : String
  iotas : List Run
  expansions : List (Nat × String)

/-- Runs of small letters with capitals that have them as their lower case. -/
def bothRuns : List Run :=
  [⟨0xe0, 0xf6, 1, -32⟩, ⟨0xf8, 0xfe, 1, -32⟩, ⟨0x101, 0x12f, 2, -1⟩, ⟨0x13a, 0x148, 2, -1⟩, ⟨0x14b, 0x177, 2, -1⟩,
    ⟨0x1df, 0x1ef, 2, -1⟩, ⟨0x1f9, 0x21f, 2, -1⟩, ⟨0x223, 0x233, 2, -1⟩, ⟨0x247, 0x24f, 2, -1⟩, ⟨0x3b1, 0x3c1, 1, -32⟩,
    ⟨0x3c3, 0x3cb, 1, -32⟩, ⟨0x3d9, 0x3ef, 2, -1⟩, ⟨0x430, 0x44f, 1, -32⟩, ⟨0x450, 0x45f, 1, -80⟩,
    ⟨0x461, 0x481, 2, -1⟩, ⟨0x48b, 0x4bf, 2, -1⟩, ⟨0x4c2, 0x4ce, 2, -1⟩, ⟨0x4d1, 0x52f, 2, -1⟩, ⟨0x561, 0x586, 1, -48⟩,
    ⟨0x10d0, 0x10fa, 1, 3008⟩, ⟨0x13f8, 0x13fd, 1, -8⟩, ⟨0x1e01, 0x1e95, 2, -1⟩, ⟨0x1ea1, 0x1eff, 2, -1⟩,
    ⟨0x1f00, 0x1f07, 1, 8⟩, ⟨0x1f10, 0x1f15, 1, 8⟩, ⟨0x1f20, 0x1f27, 1, 8⟩, ⟨0x1f30, 0x1f37, 1, 8⟩,
    ⟨0x1f40, 0x1f45, 1, 8⟩, ⟨0x1f51, 0x1f57, 2, 8⟩, ⟨0x1f60, 0x1f67, 1, 8⟩, ⟨0x1f72, 0x1f75, 1, 86⟩,
    ⟨0x2170, 0x217f, 1, -16⟩, ⟨0x24d0, 0x24e9, 1, -26⟩, ⟨0x2c30, 0x2c5f, 1, -48⟩, ⟨0x2c81, 0x2ce3, 2, -1⟩,
    ⟨0x2d00, 0x2d25, 1, -7264⟩, ⟨0xa641, 0xa66d, 2, -1⟩, ⟨0xa681, 0xa69b, 2, -1⟩, ⟨0xa723, 0xa72f, 2, -1⟩,
    ⟨0xa733, 0xa76f, 2, -1⟩, ⟨0xa77f, 0xa787, 2, -1⟩, ⟨0xa797, 0xa7a9, 2, -1⟩, ⟨0xa7b5, 0xa7c3, 2, -1⟩,
    ⟨0xab70, 0xabbf, 1, -38864⟩, ⟨0xff41, 0xff5a, 1, -32⟩, ⟨0x10428, 0x1044f, 1, -40⟩, ⟨0x104d8, 0x104fb, 1, -40⟩,
    ⟨0x10597, 0x105a1, 1, -39⟩, ⟨0x105a3, 0x105b1, 1, -39⟩, ⟨0x105b3, 0x105b9, 1, -39⟩, ⟨0x10cc0, 0x10cf2, 1, -64⟩,
    ⟨0x118c0, 0x118df, 1, -32⟩, ⟨0x16e60, 0x16e7f, 1, -32⟩, ⟨0x1e922, 0x1e943, 1, -34⟩]

def bothPairs : String :=
  "ÿŸĳĲĵĴķĶźŹżŻžŽƀɃƃƂƅƄƈƇƌƋƒƑƕǶƙƘƚȽƞȠơƠƣƢƥƤƨƧƭƬưƯƴƳƶƵƹƸƽƼƿǷǆǄǉǇǌǊǝƎǳǱǵǴȼȻȿⱾɀⱿɂɁɐⱯɑⱭɒⱰɓƁɔƆɖƉɗƊəƏɛƐɜꞫɠƓɡꞬ" ++
    "ɣƔɥꞍɦꞪɨƗɩƖɪꞮɫⱢɬꞭɯƜɱⱮɲƝɵƟɽⱤʀƦʂꟅʃƩʇꞱʈƮʉɄʊƱʋƲʌɅʒƷʝꞲʞꞰͱͰͳͲͷͶͻϽͼϾͽϿάΆέΈήΉίΊόΌύΎώΏϗϏϲϹϳͿϸϷϻϺӏӀჽᲽჾᲾჿᲿᵹꝽᵽⱣᶎꟆ" ++
    "ὰᾺάΆὶῚίΊὸῸόΌὺῪύΎὼῺώΏᾰᾸᾱᾹῐῘῑῙῠῨῡῩῥῬⅎℲↄↃⱡⱠⱥȺⱦȾⱨⱧⱪⱩⱬⱫⱳⱲⱶⱵⳬⳫⳮⳭⳳⳲⴧჇⴭჍꝺꝹꝼꝻꞌꞋꞑꞐꞓꞒꞔꟄꟈꟇꟊꟉꟑꟐꟗꟖꟙꟘꟶꟵꭓꞳ𐖻𐖔𐖼𐖕"

def uppers : Images where
  runs := bothRuns ++ [⟨0x1ce, 0x1dc, 2, -1⟩]
  pairs := bothPairs ++
    "µΜıIſSǅǄǈǇǋǊǲǱͅΙςΣϐΒϑΘϕΦϖΠϰΚϱΡϵΕᲀВᲁДᲂОᲃСᲄТᲅТᲆЪᲇѢᲈꙊẛṠιΙ"
  iotas :=
    [⟨0x1f80, 0x1f87, 1, -120⟩, ⟨0x1f88, 0x1f8f, 1, -128⟩, ⟨0x1f90, 0x1f97, 1, -104⟩, ⟨0x1f98, 0x1f9f, 1, -112⟩,
      ⟨0x1fa0, 0x1fa7, 1, -56⟩, ⟨0x1fa8, 0x1faf, 1, -64⟩]
  expansions :=
    [(0xdf, "SS"), (0x149, "ʼN"), (0x1f0, "J̌"), (0x390, "Ϊ́"), (0x3b0, "Ϋ́"), (0x587, "ԵՒ"), (0x1e96, "H̱"),
      (0x1e97, "T̈"), (0x1e98, "W̊"), (0x1e99, "Y̊"), (0x1e9a, "Aʾ"), (0x1f50, "Υ̓"), (0x1f52, "Υ̓̀"), (0x1f54, "Υ̓́"),
      (0x1f56, "Υ̓͂"), (0x1fb2, "ᾺΙ"), (0x1fb3, "ΑΙ"), (0x1fb4, "ΆΙ"), (0x1fb6, "Α͂"), (0x1fb7, "Α͂Ι"), (0x1fbc, "ΑΙ"),
      (0x1fc2, "ῊΙ"), (0x1fc3, "ΗΙ"), (0x1fc4, "ΉΙ"), (0x1fc6, "Η͂"), (0x1fc7, "Η͂Ι"), (0x1fcc, "ΗΙ"), (0x1fd2, "Ϊ̀"),
      (0x1fd3, "Ϊ́"), (0x1fd6, "Ι͂"), (0x1fd7, "Ϊ͂"), (0x1fe2, "Ϋ̀"), (0x1fe3, "Ϋ́"), (0x1fe4, "Ρ̓"),
      (0x1fe6, "Υ͂"), (0x1fe7, "Ϋ͂"), (0x1ff2, "ῺΙ"), (0x1ff3, "ΩΙ"), (0x1ff4, "ΏΙ"), (0x1ff6, "Ω͂"), (0x1ff7, "Ω͂Ι"),
      (0x1ffc, "ΩΙ"), (0xfb00, "FF"), (0xfb01, "FI"), (0xfb02, "FL"), (0xfb03, "FFI"), (0xfb04, "FFL"), (0xfb05, "ST"),
      (0xfb06, "ST"), (0xfb13, "ՄՆ"), (0xfb14, "ՄԵ"), (0xfb15, "ՄԻ"), (0xfb16, "ՎՆ"), (0xfb17, "ՄԽ")]

def lowers : Images where
  runs := bothRuns.map Run.back ++
    [⟨0x1cb, 0x1db, 2, 1⟩, ⟨0x1f88, 0x1f8f, 1, -8⟩, ⟨0x1f98, 0x1f9f, 1, -8⟩, ⟨0x1fa8, 0x1faf, 1, -8⟩]
  pairs := String.ofList bothPairs.toList.reverse ++
    "ǅǆǈǉǲǳϴθẞßᾼᾳῌῃῼῳΩωKkÅå"
  iotas := []
  expansions := [(0x130, "i̇")]

def imageOf? (runs : List Run) (c : Char) : Option Char := (runs.findSome? (·.image? c.toNat)).map Char.ofNat

/-- The image of one character: an expansion if it has one, else its own image or that of its run, else itself. -/
def Images.image (t : Images) (c : Char) : List Char :=
  match t.expansions.lookup c.toNat, imageOf? t.iotas c with
  | some cs, _ => cs.toList
  | none, some b => [b, 'Ι']
  | none, none => [(imageIn? t.pairs.toList c <|> imageOf? t.runs c).getD c]

def upperChar (c : Char) : List Char := if c.toNat < 0x80 then [c.toUpper] else uppers.image c

def lowerChar (c : Char) : List Char := if c.toNat < 0x80 then [c.toLower] else lowers.image c

/-- Whether the first character that matters is one with case. -/
def metCase (cs : List Char) : Bool :=
  ((cs.dropWhile CharClass.isIgnorable).head?.map CharClass.isCased).getD false

/-- Lower case of a text whose preceding characters, nearest first, are `before`. A capital sigma after a letter
and before none is final. -/
def lowerFrom (before : List Char) : List Char → List Char
  | [] => []
  | c :: cs =>
    (if c = 'Σ' then (if metCase before && !metCase cs then ['ς'] else ['σ']) else lowerChar c)
      ++ lowerFrom (c :: before) cs

end Goblet.LetterCase

namespace Goblet.Text

def upper (s : String) : String := String.ofList (s.toList.flatMap LetterCase.upperChar)

def lower (s : String) : String := String.ofList (LetterCase.lowerFrom [] s.toList)

end Goblet.Text
