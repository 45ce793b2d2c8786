/-!
# Classes of characters

A class is written as the lengths of spans of code points, in order: those of the first span are not in it, those of
the second are, and so on in turn. Behind the last span nothing is in it (`Spans.mem`).
-/

namespace Goblet

/-- A set of code points, as the lengths of the spans that are in turn outside of it and in it. -/
abbrev Spans := List Nat

/-- The digits of a text, with `n` from those before. -/
def Spans.readFrom (n : Nat) : List Char → Spans
  | [] => []
  | c :: cs =>
    if c.isLower then (26 * n + (c.toNat - 'a'.toNat)) :: readFrom 0 cs
    else readFrom (if c.isUpper then 26 * n + (c.toNat - 'A'.toNat) else n) cs

/-- Lengths that are written in a text to the base 26. The last digit of each is a small letter, those before it are
capitals, and what is no letter is left out. -/
def Spans.read (s : String) : Spans := readFrom 0 s.toList

def Spans.mem : Spans → Nat → Bool
  | [], _ => false
  | n :: ns, c => if c < n then false else !Spans.mem ns (c - n)

namespace CharClass

/-- Letters: the code points with the property Alphabetic. -/
def letters : Spans :=
  .read "CnBagBaBvbkbebfxbBfbRqemofhbbbDibBqfbccebbgbbdbbbubDfbFjiGkbBmcbgBpBnobbbcbcbbiBbeeBdlfCebhoDybieiedkdcbqBwnDxy
    BhjcebfycttzhlfybgrBqkmdhgCybqbdepntbicccwbhbbdediccccbbibecbfmckbedbgeccwbhbcbcbcefecccebhebbrgldbjbdbwbhbcbfdjbdbc
    dbpeveedbicccwbhbcbfdiccccjcecbfnbqcbgddbedcbbbcdcdddmefddbddbgbBonbdbxbqdibdbdicbdcbceBcebibdbxbkbfdibdbdicgcbendmn
    bdbBpcibdbdbbfehfwgbdbsdybjbbchigbbbiscnCgfhgbBzcbbbfbybbbtbdcfbbgboeBgbClibBketeqbBkCpCdbbcfqCmkecBmbbfbcBrbMvbechb
    bbecBpbecBhbechbbbecpbCfbecCpBlqqDicgdXwcrbBafCxdlhulvmumnbdbcmCactobebCpDlhBrfCskBfbmejxBecflBseBaCcBceClcuBybxcldB
    xCabpbiBzBqcekBsbloCdwdkBkcjhBrcdBpebgbcdbfHkBnolKscgcBmcgcibbbbbbbBfcCbbhbbddbhdecgenfdbhEmbnbqnDxbebckbbdfgbbbbbbe
    blceffebrBpBFhCaCRuIvgedcmBmbbfbcCehbqxjhbhbhbhbhbhbhbhbBgBvbSbdzjhfcfeDigdbDmbefBrbDqrBgBwqTsJToCmBGUfCpBucKjdqkcuB
    vfidEjBnjcDzcCmfcbbbfyubBhyCamCqbbBsgdbbdkBhfBjnBddBzbmpbqqkfbCdjosxdCrbbbbydcqcelgcgcgjhbhbBrbogEtvQNsmxeBxMNcOccEc
    BmhmffmbnbfbbbcbcbEeBhNzsCmcCcBomEmfbFfBkBagBalDldgcgcgcdBjmbBabtbcbpcoBiEtCrCbKhBddBxBvBgnBefBrfBecBkeibfBqGcsBkeBk
    eBoiCamlbpbhbcblbpbhbcCpLzjwkiygbBqbjCrgcbbBsbcdbcxkxjBfCntbckwkBaCsCegcCmebcfibdbBdBqBddBdBjibBcBbCckwktnsEgCvCdBzn
    BznBoNgBqbcdcDaBdkbiwBqsBuvBbxjCsBrfkCfjbnzxBzreiBjdbjCmbejckbbbBjsbBicbgeCkhbbbebpbkhCfxebicccwbhbcbfdiccccdbgbfhGa
    CobdbeudBeCoccbbHcCcchzgBiClbbdbChCccbCtBbcovhHdCfDzCmBficbcibcbBebcccceDpicBucgbbbcBbBzckrCufbsCvKdjbBtbhbbBxBecwbo
    CvhbcbBsdbbcbdbbccygbcbBlbcbebbMpxjrbBpddEhbDbBJmDyEhrHoDXkDtpBPgrgFYvWlMUbVxhBfrDbrBesBwqeBfvftBAmCmEyCxeCfhrCmcbbm
    coJCaiBVqBqjNFrebhbcbLfpbBddcboeiPgDKuEdfndjhkebIWfDhbCtbccbcccebmbbbhbCnbecibhbBcbebfbbdhbNcczbzbBfbzbBfbzbBfbzbBfb
    zbiCSyBfggIfhbrchbcbffCkBhbEiBtkhqbMjBesBsSqBcBDchbebcbpbHpChCqdbdbBUiebBbbcbbcbbkbebbbbgbebbbbbbdbcbbcbbbbbbbbbbcbb
    cebhbebebbbkbrfdbfbrYeBagBagBaFMkCLFcBgGDugIocINqoLBlEPjUwCFyHHzfGFg"

/-- Numerals: the code points of the categories Nd, Nl and No. -/
def numerals : Spans :=
  .read "BwkEqcfbcdCDlkFekHqkPwkEokegEekEokEokcgEgnElkihDzkEahhtEfkDskEokCsuKikCskBBruBHxdJfkgkwkLokEylGjkgkHakDikFekgkB
    OgbdggkHqBzcfBByCiDawYgBeCBhbBDxbzjodNfeFikBeibpBgkBnpBRSakHgkMigFykBmkHqkwkDikPqkBFMckSzBtmCfrcNdBbBkeBdbibFefHukBK
    gizhBnjCxfwgGeccqcBuCmjCacBedCxfEaiyiBphMsgBwkLiBfGckBqeEihFeBeEykCikFokhuJrkNekEokOkkDykDymQetDpkBDeBdItkCskQgkDyvB
    PbEhBAMrkDikFekbhBEsxBLYfumuEezBQrByDNckQgkTikBLljEykBElChbdbeCyBtbpBLanEDfk"

/-- Blanks: the property White_Space. -/
def blanks : Spans :=
  [9, 5, 18, 1, 100, 1, 26, 1, 5599, 1, 2431, 11, 29, 2, 5, 1, 47, 1, 4000, 1]

/-- Characters that are not seen by themselves: marks that extend the character before them, controls, formats, private
and unassigned code points, and every separator but the plain space. -/
def unseen : Spans :=
  .read "aBgDrBimbWwEiicgehbbbubIqhGkbBmcBycdBubbbcbcbjBbegrklbbBuvqbDxibgccbeBgcbbBeBdDllboBrjhdyebjbdbhpbzfbblfBfrBqCf
    CdbbbeiebdhkcBdbcbicccwbhbbdedbbcgcccbbncbdeyfbbgeccwbhbcbcbcedyebbhkcdbbmbbjbdbwbhbcbfdeibbcdbpcemhbicbicccwbhbcbfd
    bcbgcccpcbdeslbbgddbedcbbbcdcdddmfbbcddbddbvvgdbibdbxbqdbdetdcbccekhkblbdbxbkbfdcbcbcccbcrcbcekbdolbdbBpcbbcfdbdbced
    bkeBaccbsdybjbbchjcghhkcdmBwbcliinBlcbbbfbybbbkbcjbcfbbjkceBgycBbbbbbbobBksbfbcfBxibgbnBlBtebgbccczcedqenbccgbpbBobb
    fbcOnbechbbbecBpbecBhbechbbbecpbCfbecCpfBddBagDicgcYqbBcdDlhsdbjtcdjsonbdpCacbhibcljdkgkglfkgDlhfcBibbfCskBfeecdecbg
    hbdBqcflBseBagldCfccdCebbjbbcignkgkgoDiBwhbbfbkdBbjldBgeccbdCebbcdbbdciBwicfpdCihBrcllbnbhebgbdcbfHkCmKscgcBmcgcibbb
    bbbbBfcCbbpbocgbtcdbjryiBvrccBbbndBhClFkeZnzlvCRscBgbNgdcfBtbbfbcCehcpxjhbhbhbhbhbhbhbhBhDqBiBabDlmIgBamfBpgqbDieDxf
    BrbDqbDgmBvbBRIrdCdjNkuBvebkBgcDccgiHvfcbbbfyqbdbebzcfekgCeiCqkmynbBmizlclBegBwbceccqblehbzbBpgcccldbibbckcBgbBzbbdc
    cfcbbbyrcilgcgcgjhbhbCieEnbcbedkgQNsmxeBxMNcOccEcBmhmffbbybfbbbcbcbEvqRdcCchbBgqqkwBjbtbeefbFfeGbcBfdgcgcgcddhbhnccm
    bBabtbcbpcoBiEtfdeBtdDkbndbBvBtFbBddBxqBbeBkjBefBmkBebBleoBqGcckgBkeBkeBoiCalmbpbhbcblbpbhbcCpLzjwkiygbBqbjCrgcbbBsb
    cdbcxbCuijBwtbcfBhdBbfbCmCeeucBvpebdbBdkjhjhCmBgBlgmjCcdBdcBbfBahemhDcCvCdBznBzhBqmkLiBfbBqdbccDaBoiwljwseeBmBcuxjbb
    CcpheBebccbmBxecccbeozhkjBkfbjsiBjbdlCajkecbqbulsbBcdcbbcgbcClhbbbebpblgBvbdnkicbicccwbhbcbfdbbbbecccdcbmhGaCeicdbbv
    bbbdBeBwbcgbbcbbcbceikGkBvbcgecbcBbBkBzicbbcelkgntBrbbbcgbbcgkCcBbfcebjxHdBvjbcbDwDfmicbcibcbybfbcebbebdjkCsicBqiebe
    BbbkBogceijbgcdBunbcjnCvhkJmjbBmobbgkBddBgzbhbcbCxhbcbBmvbjkggbcbBlecbbbbhkLytcejpbBkicbbbxDibpBynBJnDyEhbflHoDXkDvn
    BPgrgFYvWlMUbVxhBfbkeDdbkgBehbkBwhpkkbhbvftBAmDnDxCxfCelnCmemcoJCaiBVqBqjNFrebhbcbLfpbBddcboeiPgDKuEdfndjhkcbcbHCaEm
    CiJmkBncCibbdevchBeeCjvCodbEsumumDjjzFfDhbCtbccbcccebmbbbhbCnbecibhbBcbebfbbdhbNccLgcVqCdeByibobhBRwBfggKbCkFqBtkhck
    ecMiBesBsekfbRwBcekBCohbebcbpbHpcjBwCqhbekecBEfCqCyCjHmebBbbcbbcbbkbebbbbgbebbbbbbdbcbbcbbbbbbbbbbcbbcebhbebebbbkbrf
    dbfbrCacKkBseDwmpcpbpbBlkGsCeBdnBsejhcogFyBLwerdndEpeDrgmebpmeCeikgBoiBeccDaNcmocndjhBubhioejhjhFrbCdBlkBNqCLFcBgGDu
    gIocINqoLBlEPjUwCFyHHzfGFg"

/-- Characters that have case: the property Cased. -/
def cased : Spans :=
  .read "CnBagBaBvbkbebfxbBfbHnbeeIabBkhcBefDsbBqecccebbgbbdbbbubDfbFjiGkbBmjBpEFfBmbbfbcBrbeZwDicgDFujhBrcdCmHkCmKscgcB
    mcgcibbbbbbbBfcCbbhbbddbhdecgenfdbhEmbnbqnDxbebckbbdfgbbbbbbebgebceffebrBgdcBFlCaCRuIvgedcmBmbbfbBTWcBusBeFcDydebChf
    cbbbfyfbdBFpBrbogDcBEAihmfBNtBagBaBTtDcDsBkeBkEmlbpbhbcblbpbhbcRjbcdbBqbjBUzBznBzEKzCmBGIqCmBMLkDhbCtbccbcccebmbbbhb
    CnbecibhbBcbebfbbdhbNcczbzbBfbzbBfbzbBfbzbBfbzbiCSykbuggKbCkDGkCqDAaBagBagBa"

/-- Characters that case contexts look through: the property Case_Ignorable. -/
def ignorable : Spans :=
  .read "BnbgblbBjbbbCtbebbbebccTjHkecebjcbbJrhHzbfbBxBtbbbcbcbbBsblgklbbBjbkvqbDxibkbeBhbbbBeBbDnlCglebcbyyBrdBsbhcgiBp
    CgCdbbbeiebdhkcnbpbCgbeeibucBabccCfbececcddbBecdblcCfbefbcebucwgbbCgbcbbeibhclcBebCjbmbBybdbCdbbdfdbehclcBdbCgbcbgbf
    cucBccCfceeibucBdbCubhdbbDmbchljDubcjjbbhCvcBbbbbbbCdobfbcflbBkjbDyebgbccczcedqenbccgbpbDqbXkdBKkdBdcBecBecCmcbhibcl
    dbfbBtfBzbCncBibEodecjbgdIlccbCgbbhbbbbcigkcbBnbiBfBxeBwbbfbbfbBojmcBgeccbdCebbcdbbdCgiccCmgDedbnbhebgbdcByClnbBiDxR
    dbbdldndndncmfickbcbcfBxfbkbbnbqnBzBhEJrcEjdEvbpbDsBgBvbSbbBkedffbDpgDpdBQBubBWcgKkbDuebkbbBceDccoBiDabxdDzddcibdbeb
    zcfbFvcBasnbBmizlBudBwbceccrbvcCogccccmbibBjblbBzbbdccfcbbBbbocfcbbDwfjdErbcbebBDZsbFrrWbqdbmqBibcbGnbhbgblbBjbbbBvb
    BtcCpbvdTtbIsbFtfBNpgbBqbjWkdbcfeBodebGjcWbeOxcDcdCslBxeEtbCcpBpbcckdBxecccbebkbBydBkfbiCkbmcCajkecbDrdcbbcgbcbGbbdi
    vcCfcdbBlhdfHnicdbbxbDggbbecbcJeegcbcBbcDhicbbcEcbbbcgbbDxdcebfJzjbcJwcbbebFoeccebBgkBogceibjgcdBunbcPqhbgbbDewchbcb
    cEsgdbbcbhbbCucdbbbNjclcCaffbbbHYbrgpURqfChhjeBNvbClrCmcbcYGpebhbcEUgcbeGYuBucxUydjqchBeeFsdCYdCdeByibobwfbpCAihbrch
    bcbffCkBhbGeoOebCjeTnfBMehEfiEBffBSXXpbBeDsEyJg"

/-! ## The classes in use

Below the first non-ASCII code point the answer needs no table. -/

def isLetter (c : Char) : Bool :=
  if c.toNat < 0x80 then c.isAlpha else letters.mem c.toNat

def isLetterOrNumeral (c : Char) : Bool :=
  if c.toNat < 0x80 then c.isAlphanum else letters.mem c.toNat || numerals.mem c.toNat

def isBlank (c : Char) : Bool := blanks.mem c.toNat

def isInvisible (c : Char) : Bool :=
  if c.toNat < 0x7f then c.toNat < 0x20 else unseen.mem c.toNat

def isCased (c : Char) : Bool := cased.mem c.toNat

def isIgnorable (c : Char) : Bool := ignorable.mem c.toNat

end CharClass

end Goblet
