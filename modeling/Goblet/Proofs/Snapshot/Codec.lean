import Mathlib.Algebra.Group.Nat.Defs
import Goblet.Snapshot.Codec

/-!
# Dumps read back from bytes

A reader reads bytes as a thing (`Decode.Reads`) if on those bytes, whatever follows them, it gives the thing and leaves
what follows. Readers one after another read the bytes one after another (`Reads.bind`), so each part of the format
needs one lemma: numbers up to the tenth byte (`reads_varint`), signed numbers (`unzigzag_zigzag`), words, texts, and
then values of any nesting (`reads_valueTo`), by recursion on the value.

* `Dump.ofBytes_toBytes`: the bytes of a dump whose numbers and lengths fit 64 bits read back as that dump, whatever
  follows them.
-/

namespace Goblet

open List DumpValue Encode

/-! ## What fits -/

/-- Numbers and lengths of dumps are below this, so they have at most 64 bits. -/
def DumpValue.limit : Nat := 18446744073709551616

/-- A text is no longer than a dump can say. -/
def DumpValue.textFits (s : String) : Bool := Text.byteLength s < limit

mutual

/-- All numbers and lengths in a value fit. -/
def DumpValue.fits : DumpValue → Bool
  | .nil | .bool _ | .int _ | .float _ => true
  | .str s => textFits s
  | .slice ds | .struct ds => ds.length < limit && allFit ds
  | .map es => es.length < limit && entriesFit es
  | .cell n | .addr n | .func n => n < limit

def DumpValue.allFit : List DumpValue → Bool
  | [] => true
  | d :: ds => d.fits && allFit ds

def DumpValue.entriesFit : List (DumpValue × DumpValue) → Bool
  | [] => true
  | (k, d) :: es => k.fits && d.fits && entriesFit es

end

theorem DumpValue.fits_of_mem {d : DumpValue} : ∀ {ds : List DumpValue}, allFit ds = true → d ∈ ds →
    d.fits = true
  | [], _, hd => nomatch hd
  | d' :: ds, h, hd => by
    rw [allFit, Bool.and_eq_true] at h
    rcases mem_cons.mp hd with rfl | hd
    · exact h.1
    · exact fits_of_mem h.2 hd

/-- All numbers and lengths in a record fit. -/
def DumpRecord.fits (r : DumpRecord) : Bool :=
  r.index < limit && textFits r.name && textFits r.typeName && r.value.fits

/-- All numbers and lengths in a dump fit. -/
def Dump.fits (d : Dump) : Bool :=
  d.records.length < limit && d.records.all DumpRecord.fits &&
    d.cells.length < limit && allFit d.cells

/-! ## Reading -/

namespace Decode

/-- On these bytes, whatever follows them, the reader gives the result and leaves what follows. -/
def Reads (x : Decode α) (bs : List UInt8) (a : α) : Prop := ∀ rest, x.run (bs ++ rest) = .ok (a, rest)

namespace Reads

variable {x : Decode α} {f : α → Decode β} {bs cs : List UInt8} {a : α} {b : β}

theorem pure (a : α) : Reads (Pure.pure a) [] a := fun _ => rfl

theorem bind (hx : Reads x bs a) (hf : Reads (f a) cs b) : Reads (x >>= f) (bs ++ cs) b := by
  intro rest
  rw [StateT.run_bind, append_assoc, hx (cs ++ rest)]
  exact hf rest

theorem map (hx : Reads x bs a) (g : α → β) : Reads (do return g (← x)) bs (g a) := by
  rw [← bs.append_nil]
  exact hx.bind (.pure (g a))

end Reads

theorem reads_byte (b : UInt8) : Reads byte [b] b := fun _ => rfl

theorem reads_bytes (bs : List UInt8) : Reads (bytes bs.length) bs bs := by
  intro rest
  have h : bs.length ≤ (bs ++ rest).length := by rw [length_append]; omega
  have hd : (bs ++ rest).drop bs.length = rest := drop_left
  have ht : (bs ++ rest).take bs.length = bs := take_left
  simp only [bytes, StateT.run_bind, StateT.run_get, pure_bind, if_pos h, StateT.run_set, StateT.run_pure, hd, ht]
  rfl

/-! ### Numbers -/

variable {n : Nat} {write : α → List UInt8} {d : DumpValue} {item : Decode α}

theorem toNat_low (h : n < 128) : (UInt8.ofNat n).toNat = n := by
  rw [UInt8.toNat_ofNat']
  omega

theorem toNat_high (n : Nat) : (UInt8.ofNat (n % 128 + 128)).toNat = n % 128 + 128 := by
  rw [UInt8.toNat_ofNat']
  omega

/-- A number below `(top + 1) * 128 ^ k` reads back from at most `k + 1` bytes, of which the last possible one is at
most `top`. -/
theorem reads_varintTo {top : UInt8} (ht : top < 128) :
    ∀ (k n : Nat), n < (top.toNat + 1) * 128 ^ k → Reads (varintTo top (k + 1)) (Encode.varintTo (k + 1) n) n := by
  have htop : top.toNat < 128 := ht
  -- A byte below 128 ends the number, and it may be the last possible one only up to `top`.
  have last : ∀ k n : Nat, n < 128 → (k = 0 → n ≤ top.toNat) →
      Reads (varintTo top (k + 1)) [UInt8.ofNat n] n := by
    intro k n hn hk rest
    have hb : UInt8.ofNat n < 128 := UInt8.lt_iff_toNat_lt.mpr (by rw [toNat_low hn]; exact hn)
    have hc : ¬(k = 0 ∧ top < UInt8.ofNat n) := by
      rintro ⟨hk0, hlt⟩
      have := UInt8.lt_iff_toNat_lt.mp hlt
      rw [toNat_low hn] at this
      have := hk hk0
      omega
    rw [varintTo, StateT.run_bind, reads_byte (UInt8.ofNat n) rest]
    simp only [bind, Except.bind, if_pos hb, if_neg hc, toNat_low hn]
    rfl
  intro k
  induction k with
  | zero =>
    intro n hn
    have hn' : n < 128 := by omega
    rw [Encode.varintTo, if_pos hn']
    exact last 0 n hn' fun _ => by omega
  | succ k ih =>
    intro n hn
    by_cases h : n < 128
    · rw [Encode.varintTo, if_pos h]
      exact last (k + 1) n h nofun
    · have hq : n / 128 < (top.toNat + 1) * 128 ^ k := by
        rw [Nat.div_lt_iff_lt_mul (by decide), Nat.mul_assoc]
        exact hn
      have hb : ¬UInt8.ofNat (n % 128 + 128) < 128 := by
        intro hlt
        have hlt' : n % 128 + 128 < 128 := by
          rw [← toNat_high]
          exact UInt8.lt_iff_toNat_lt.mp hlt
        omega
      rw [Encode.varintTo, if_neg h]
      refine (reads_byte _).bind ?_
      rw [if_neg hb]
      have hsum : (UInt8.ofNat (n % 128 + 128)).toNat - 128 + 128 * (n / 128) = n := by
        rw [toNat_high]
        omega
      have := (ih (n / 128) hq).map fun q => (UInt8.ofNat (n % 128 + 128)).toNat - 128 + 128 * q
      rwa [hsum] at this

/-- A number in groups of seven bits reads back. -/
theorem reads_varint (h : n < DumpValue.limit) : Reads varint (Encode.varint n) n :=
  reads_varintTo (by decide) 9 n (Nat.lt_of_lt_of_eq h (by decide))

theorem reads_choice (h : n < 128) : Reads choice (Encode.varint n) n := by
  have he : Encode.varint n = Encode.varintTo 5 n := by
    simp only [Encode.varint, Encode.varintTo, if_pos h]
  rw [he]
  exact reads_varintTo (by decide) 4 n (Nat.lt_of_lt_of_le h (by decide))

/-- Signs fold away and back. -/
theorem unzigzag_zigzag (n : Int64) : unzigzag (zigzag n) = n := by
  have hn : (0 ≤ n) ↔ 0 ≤ n.toInt := by rw [Int64.le_iff_toInt_le]; rfl
  have : (if zigzag n % 2 = 0 then ((zigzag n / 2 : Nat) : Int)
      else -((zigzag n / 2 : Nat) : Int) - 1) = n.toInt := by
    unfold zigzag
    by_cases h : 0 ≤ n
    · have := hn.mp h
      rw [if_pos h]
      omega
    · have := mt hn.mpr h
      rw [if_neg h]
      omega
  rw [unzigzag, this, Int64.ofInt_toInt]

theorem zigzag_fits (n : Int64) : zigzag n < limit := by
  have hn : (0 ≤ n) ↔ 0 ≤ n.toInt := by rw [Int64.le_iff_toInt_le]; rfl
  have h1 := n.toInt_lt
  have h2 := n.le_toInt
  unfold zigzag limit
  split
  · omega
  · omega

theorem reads_int (n : Int64) : Reads (do return int (unzigzag (← varint)))
    (Encode.varint (Encode.zigzag n)) (.int n) := by
  have := (reads_varint (zigzag_fits n)).map fun m => int (unzigzag m)
  rwa [unzigzag_zigzag] at this

/-! ### Words, texts, truth values -/

theorem number_wordTo : ∀ k n : Nat, n < 256 ^ k → number (wordTo k n) = n
  | 0, n, h => by
    rw [wordTo, number]
    omega
  | k + 1, n, h => by
    have hq : n / 256 < 256 ^ k := by
      rw [Nat.div_lt_iff_lt_mul (by decide)]
      exact h
    rw [wordTo, number, number_wordTo k _ hq, UInt8.toNat_ofNat']
    omega

/-- The eight bytes of a word read back. -/
theorem reads_word (bits : UInt64) : Reads word (Encode.word bits) bits := by
  have hb := reads_bytes (Encode.word bits)
  rw [Encode.word] at hb
  have := hb.map fun bs => UInt64.ofNat (number bs)
  rwa [number_wordTo 8 _ (Nat.lt_of_lt_of_eq bits.toNat_lt (by decide)), UInt64.ofNat_toNat] at this

theorem ofBytes?_bytes (s : String) : Text.ofBytes? (Text.bytes s) = some s := by
  have h : ByteArray.mk (Text.bytes s).toArray = s.toByteArray := by
    simp only [Text.bytes, String.toUTF8, Array.toArray_toList]
  rw [Text.ofBytes?, h, String.fromUTF8?, dif_pos s.isValidUTF8]
  rfl

/-- A text reads back from its bytes. -/
theorem reads_text {s : String} (h : DumpValue.textFits s = true) : Reads text (Encode.text s) s := by
  have hlen : Text.byteLength s < limit := of_decide_eq_true h
  rw [Encode.text, text, ← append_nil (Text.bytes s)]
  refine (reads_varint hlen).bind ((reads_bytes (Text.bytes s)).bind ?_)
  rw [ofBytes?_bytes]
  exact .pure s

theorem reads_bool (b : Bool) : Reads bool [if b then 1 else 0] b := by
  cases b <;> exact fun _ => rfl

/-! ### Sequences -/

theorem reads_many :
    ∀ {as : List α}, (∀ a ∈ as, Reads item (write a) a) → Reads (many item as.length) (as.flatMap write) as
  | [], _ => .pure []
  | a :: as, h => by
    refine (h a (.head _)).bind ?_
    exact (reads_many fun b hb => h b (.tail _ hb)).map (a :: ·)

/-- A length and that many items. -/
theorem reads_sequence {as : List α}
    (hlen : as.length < DumpValue.limit) (h : ∀ a ∈ as, Reads item (write a) a) :
    Reads (sequence item) (Encode.varint as.length ++ as.flatMap write) as :=
  (reads_varint hlen).bind (reads_many h)

/-! ### Values -/

theorem values_eq_flatMap : ∀ ds : List DumpValue, Encode.values ds = ds.flatMap Encode.value
  | [] => rfl
  | d :: ds => by rw [Encode.values, flatMap_cons, values_eq_flatMap ds]

/-- The bytes of an entry of a map. -/
def entryBytes (e : DumpValue × DumpValue) : List UInt8 := Encode.value e.1 ++ Encode.value e.2

theorem entries_eq_flatMap : ∀ es : List (DumpValue × DumpValue), entries es = es.flatMap entryBytes
  | [] => rfl
  | (k, d) :: es => by rw [Encode.entries, flatMap_cons, entries_eq_flatMap es, entryBytes]

theorem length_varint_small (h : n < 128) : (Encode.varint n).length = 1 := by
  simp only [Encode.varint, Encode.varintTo, if_pos h, length_singleton]

/-- The reader of a value goes on with what belongs to its choice. -/
theorem reads_variant {i m : Nat} {bs : List UInt8} {f : Nat → Decode DumpValue}
    (hf : valueTo (m + 1) = choice >>= f) (hi : i < 128) (h : Reads (f i) bs d) :
    Reads (valueTo (m + 1)) (Encode.varint i ++ bs) d := by
  rw [hf]
  exact (reads_choice hi).bind h

-- Each level of nesting takes a byte for its choice, so the bytes of the parts are fewer than those of the whole and
-- the depth that is left suffices for them.
mutual

/-- A value reads back, by its length in bytes. -/
theorem reads_valueTo : ∀ (d : DumpValue) (n : Nat), (Encode.value d).length ≤ n → d.fits = true →
    Reads (valueTo n) (Encode.value d) d
  | d, 0, hn, _ => by
    exfalso
    cases d <;> simp [Encode.value, length_varint_small] at hn
  | .nil, m + 1, _, _ => by
    rw [Encode.value, ← append_nil (Encode.varint 0)]
    exact reads_variant (valueTo.eq_2 m) (by decide) (.pure DumpValue.nil)
  | .bool b, m + 1, _, _ => reads_variant (valueTo.eq_2 m) (by decide) ((reads_bool b).map DumpValue.bool)
  | .int i, m + 1, _, _ => reads_variant (valueTo.eq_2 m) (by decide) (reads_int i)
  | .float bits, m + 1, _, _ => reads_variant (valueTo.eq_2 m) (by decide) ((reads_word bits).map DumpValue.float)
  | .str s, m + 1, _, hf => by
    exact reads_variant (valueTo.eq_2 m) (by decide) ((reads_text hf).map DumpValue.str)
  | .slice ds, m + 1, hn, hf => by
    rw [DumpValue.fits, Bool.and_eq_true, decide_eq_true_eq] at hf
    have hm : (Encode.values ds).length ≤ m := by
      simp only [Encode.value, length_append, length_varint_small (show 5 < 128 by decide)] at hn
      omega
    rw [Encode.value, append_assoc, values_eq_flatMap]
    exact reads_variant (valueTo.eq_2 m) (by decide)
      ((reads_sequence hf.1 (reads_values ds m hm hf.2)).map DumpValue.slice)
  | .map es, m + 1, hn, hf => by
    rw [DumpValue.fits, Bool.and_eq_true, decide_eq_true_eq] at hf
    have hm : (Encode.entries es).length ≤ m := by
      simp only [Encode.value, length_append, length_varint_small (show 6 < 128 by decide)] at hn
      omega
    rw [Encode.value, append_assoc, entries_eq_flatMap]
    exact reads_variant (valueTo.eq_2 m) (by decide)
      ((reads_sequence hf.1 (reads_entries es m hm hf.2)).map DumpValue.map)
  | .struct ds, m + 1, hn, hf => by
    rw [DumpValue.fits, Bool.and_eq_true, decide_eq_true_eq] at hf
    have hm : (Encode.values ds).length ≤ m := by
      simp only [Encode.value, length_append, length_varint_small (show 7 < 128 by decide)] at hn
      omega
    rw [Encode.value, append_assoc, values_eq_flatMap]
    exact reads_variant (valueTo.eq_2 m) (by decide)
      ((reads_sequence hf.1 (reads_values ds m hm hf.2)).map DumpValue.struct)
  | .cell n, m + 1, _, hf => by
    rw [DumpValue.fits, decide_eq_true_eq] at hf
    exact reads_variant (valueTo.eq_2 m) (by decide) ((reads_varint hf).map DumpValue.cell)
  | .addr n, m + 1, _, hf => by
    rw [DumpValue.fits, decide_eq_true_eq] at hf
    exact reads_variant (valueTo.eq_2 m) (by decide) ((reads_varint hf).map DumpValue.addr)
  | .func n, m + 1, _, hf => by
    rw [DumpValue.fits, decide_eq_true_eq] at hf
    exact reads_variant (valueTo.eq_2 m) (by decide) ((reads_varint hf).map DumpValue.func)

theorem reads_values : ∀ (ds : List DumpValue) (n : Nat), (values ds).length ≤ n →
    DumpValue.allFit ds = true → ∀ d ∈ ds, Reads (valueTo n) (Encode.value d) d
  | [], _, _, _, _, hd => nomatch hd
  | d :: ds, n, hn, hf, d', hd => by
    rw [values, length_append] at hn
    rw [allFit, Bool.and_eq_true] at hf
    rcases mem_cons.mp hd with he | hd
    · rw [he]
      exact reads_valueTo d n (by omega) hf.1
    · exact reads_values ds n (by omega) hf.2 d' hd

theorem reads_entries : ∀ (es : List (DumpValue × DumpValue)) (n : Nat), (entries es).length ≤ n →
    entriesFit es = true → ∀ e ∈ es,
    Reads (do let k ← valueTo n; return (k, ← valueTo n)) (entryBytes e) e
  | [], _, _, _, _, he => nomatch he
  | (k, d) :: es, n, hn, hf, e, he => by
    rw [entries, length_append, length_append] at hn
    rw [entriesFit, Bool.and_eq_true, Bool.and_eq_true] at hf
    rcases mem_cons.mp he with he | he
    · rw [he]
      exact (reads_valueTo k n (by omega) hf.1.1).bind ((reads_valueTo d n (by omega) hf.1.2).map (k, ·))
    · exact reads_entries es n (by omega) hf.2 e he

end

theorem reads_value (hf : d.fits = true) : Reads value (Encode.value d) d := by
  intro rest
  refine reads_valueTo d _ ?_ hf rest
  rw [length_append]
  omega

/-! ### Dumps -/

theorem reads_kind (k : DumpKind) : Reads kind (Encode.kind k) k := by
  cases k
  · exact (reads_choice (show 0 < 128 by decide)).bind (.pure DumpKind.var)
  · exact (reads_choice (show 1 < 128 by decide)).bind (.pure DumpKind.func)

/-- So does a record. -/
theorem reads_record {r : DumpRecord} (hf : r.fits = true) : Reads record (Encode.record r) r := by
  simp only [DumpRecord.fits, Bool.and_eq_true, decide_eq_true_eq] at hf
  obtain ⟨⟨⟨hi, hn⟩, ht⟩, hv⟩ := hf
  simp only [Encode.record, append_assoc]
  exact (reads_varint hi).bind <| (reads_text hn).bind <| (reads_kind r.kind).bind <| (reads_text ht).bind <|
    (reads_value hv).map (DumpRecord.mk r.index r.name r.kind r.typeName)

end Decode

/-- The bytes of a dump read back as that dump, whatever follows them. -/
theorem Dump.ofBytes_toBytes (d : Dump) (hf : d.fits = true) (rest : List UInt8) :
    Dump.ofBytes (d.toBytes ++ rest) = .ok d := by
  simp only [Dump.fits, Bool.and_eq_true, decide_eq_true_eq, all_eq_true] at hf
  obtain ⟨⟨⟨hr, hrs⟩, hc⟩, hcs⟩ := hf
  have hcells : ∀ c ∈ d.cells, Decode.Reads Decode.value (value c) c := by
    intro c hc
    exact Decode.reads_value (fits_of_mem hcs hc)
  have records := Decode.reads_sequence hr fun r h => Decode.reads_record (hrs r h)
  have cells := Decode.reads_sequence hc hcells rest
  rw [← Decode.values_eq_flatMap, append_assoc] at cells
  rw [Dump.toBytes, dump, append_assoc, append_assoc, Dump.ofBytes, records]
  simp only [bind, Except.bind, cells]
  rfl

/-- The least integer, bits of a float that is not a number, and a cell that leads to itself through a map, before the
bytes of something else. -/
theorem Dump.ofBytes_toBytes_cyclic :
    let d : Dump := ⟨[⟨3, "main/p", .var, "*any", .struct [.int (-9223372036854775808), .cell 0]⟩],
      [.map [(.str "next", .slice [.cell 0, .float 0x7FF0000000000001])]]⟩
    Dump.ofBytes (d.toBytes ++ [255, 0]) = .ok d :=
  Dump.ofBytes_toBytes _ (by decide +kernel) [255, 0]

end Goblet
