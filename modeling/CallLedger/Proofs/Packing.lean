import CallLedger.Dump.Format
import CallLedger.Proofs.Limits

/-!
# A packed dump comes back as it was

Numbers and lengths are written with the shortest header that holds them. The first byte says which
header it is, and the reader then takes as many bytes as that header announces and no more. So a
value is read off the front of its bytes whatever stands behind them (`ReadsLeaf`, `ReadsHeader`),
and the members of a list or a record come off one after the other, each from what the ones before
it left over. The induction is on the data; it carries the bytes behind the value and a bound on
how deep the reader may go, two calls for each byte (`Storable.reads`).

What cannot come back is a number beyond 64 bits or a length beyond 32, as their headers are cut
short. Within these `limits` all data of a dump is stored.
Amounts are eight raw bytes, so infinities and NaNs come back with all their bits.
-/

namespace CallLedger

namespace MessagePack

/-! ## Words -/

theorem length_bigEndian (width n : Nat) : (bigEndian width n).length = width := by
  induction width generalizing n with
  | zero => rfl
  | succ width ih => rw [bigEndian, List.length_append, ih, List.length_singleton]

theorem takeBytes_append (taken rest : List UInt8) :
    takeBytes taken.length (taken ++ rest) = some (taken, rest) := by
  induction taken with
  | nil => rfl
  | cons byte more ih => rw [List.length_cons, List.cons_append, takeBytes, ih, Option.map_some]

theorem ofBigEndian_bigEndian {width n : Nat} (h : n < 256 ^ width) :
    ofBigEndian (bigEndian width n) = n := by
  induction width generalizing n with
  | zero =>
      rw [Nat.pow_zero, Nat.lt_one_iff] at h
      rw [h]
      rfl
  | succ width ih =>
      have hhigh : n / 256 < 256 ^ width := Nat.div_lt_of_lt_mul (by rw [Nat.pow_succ] at h; omega)
      have hlow : n.toUInt8.toNat = n % 256 := rfl
      rw [bigEndian, ofBigEndian, List.foldl_append, ← ofBigEndian, ih hhigh]
      simp only [List.foldl_cons, List.foldl_nil, hlow]
      omega

theorem readWord_bigEndian {width n : Nat} (h : n < 256 ^ width) (rest : List UInt8) :
    readWord width (bigEndian width n ++ rest) = some (n, rest) := by
  have htake := takeBytes_append (bigEndian width n) rest
  rw [length_bigEndian] at htake
  rw [readWord, htake, Option.map_some]
  exact congrArg (fun n => some (n, rest)) (ofBigEndian_bigEndian h)

/-- What has a length before it is read with that length. -/
theorem withLength_bigEndian {β : Type} {width length : Nat} (h : length < 256 ^ width)
    (rest : List UInt8) (read : Nat → List UInt8 → Option β) :
    withLength width (bigEndian width length ++ rest) read = read length rest := by
  rw [withLength, readWord_bigEndian h, Option.bind_some]

/-- A negative number is written as the natural number below its opposite, with all bits turned
over. -/
theorem readSigned_bigEndian {width n : Nat} (hwidth : 0 < width) (h : 2 * n < 256 ^ width)
    (rest : List UInt8) :
    readSigned width (bigEndian width (256 ^ width - 1 - n) ++ rest) =
      some (.int (.negSucc n), rest) := by
  have hpower : 256 ^ width = Nat.pow 2 (8 * width) := by
    rw [Nat.pow_eq, Nat.pow_mul]
  have hhalf : Nat.pow 2 (8 * width) = 2 * Nat.pow 2 (8 * width - 1) := by
    rw [Nat.pow_eq, Nat.pow_eq, ← Nat.pow_succ']
    congr 1
    omega
  have hnegative : ¬ 256 ^ width - 1 - n < Nat.pow 2 (8 * width - 1) := by omega
  rw [readSigned, readWord_bigEndian (by omega), Option.map_some]
  simp only [if_neg hnegative]
  congr 3
  omega

/-! ## First bytes -/

theorem toNat_sum {base : UInt8} {n : Nat} (h : base.toNat + n < 256) :
    (base + n.toUInt8).toNat = base.toNat + n := by
  have hn : n.toUInt8.toNat = n % 256 := rfl
  rw [UInt8.toNat_add, hn]
  omega

theorem isNested_eq_false {first : UInt8} (h : first.toNat < 0x80 ∨ 0xe0 ≤ first.toNat ∨
    0xa0 ≤ first.toNat ∧ first.toNat < 0xdc) : isNested first = false := by
  simp [isNested, UInt8.le_iff_toNat_le, UInt8.lt_iff_toNat_lt]
  omega

theorem readLeaf_small {first : UInt8} (h : first.toNat < 0x80) (bytes : List UInt8) :
    readLeaf first bytes = some (.int first.toNat, bytes) := by
  unfold readLeaf
  rw [if_pos (UInt8.lt_iff_toNat_lt.mpr h)]

theorem readLeaf_negative {first : UInt8} (h : 0xe0 ≤ first.toNat) (bytes : List UInt8) :
    readLeaf first bytes = some (.int ((first.toNat : Int) - 256), bytes) := by
  have hlow : ¬ first < 0x80 := by
    rw [UInt8.lt_iff_toNat_lt]
    exact Nat.not_lt.mpr (Nat.le_trans (by decide) h)
  have hhigh : first ≥ 0xe0 := UInt8.le_iff_toNat_le.mpr h
  unfold readLeaf
  rw [if_neg hlow, if_pos hhigh]

theorem readLeaf_shortText {first : UInt8} (hlow : 0xa0 ≤ first.toNat)
    (hhigh : first.toNat < 0xc0) (bytes : List UInt8) :
    readLeaf first bytes = readText (first.toNat - 0xa0) bytes := by
  have hsmall : ¬ first < 0x80 := by
    rw [UInt8.lt_iff_toNat_lt]
    exact Nat.not_lt.mpr (Nat.le_trans (by decide) hlow)
  have hnegative : ¬ first ≥ 0xe0 := by
    rw [ge_iff_le, UInt8.le_iff_toNat_le]
    exact Nat.not_le.mpr (Nat.lt_trans hhigh (by decide))
  have htext : (0xa0 ≤ first && first < 0xc0) = true := by
    simp only [Bool.and_eq_true, decide_eq_true_eq]
    exact ⟨UInt8.le_iff_toNat_le.mpr hlow, UInt8.lt_iff_toNat_lt.mpr hhigh⟩
  unfold readLeaf
  rw [if_neg hsmall, if_neg hnegative, if_pos htext]

/-! ## Numbers -/

/-- A value without values in it is read back with whatever stands behind it. -/
def ReadsLeaf (bytes : List UInt8) (data : Data) : Prop :=
  ∃ first tail, bytes = first :: tail ∧ isNested first = false ∧
    ∀ rest, readLeaf first (tail ++ rest) = some (data, rest)

theorem readsLeaf_word {first : UInt8} {width n : Nat} (h : n < 256 ^ width)
    (hfirst : isNested first = false)
    (hread : ∀ bytes, readLeaf first bytes =
      (readWord width bytes).map fun (n, rest) => (.int n, rest)) :
    ReadsLeaf (first :: bigEndian width n) (.int n) :=
  ⟨first, _, rfl, hfirst, fun rest => by rw [hread, readWord_bigEndian h]; rfl⟩

theorem readsLeaf_writeNat {n : Nat} (h : n < 2 ^ 64) : ReadsLeaf (writeNat n) (.int n) := by
  unfold writeNat
  split
  · next hn =>
      have hfirst : n.toUInt8.toNat = n := Nat.mod_eq_of_lt (by omega)
      exact ⟨_, [], rfl, isNested_eq_false (by omega), fun rest => by
        rw [readLeaf_small (by omega), hfirst, List.nil_append]⟩
  split
  · exact readsLeaf_word (by omega) rfl fun _ => rfl
  split
  · exact readsLeaf_word (by omega) rfl fun _ => rfl
  split
  · exact readsLeaf_word (by omega) rfl fun _ => rfl
  · exact readsLeaf_word (by omega) rfl fun _ => rfl

theorem readsLeaf_signed {first : UInt8} {width n : Nat} (hwidth : 0 < width)
    (h : 2 * n < 256 ^ width) (hfirst : isNested first = false)
    (hread : ∀ bytes, readLeaf first bytes = readSigned width bytes) :
    ReadsLeaf (first :: bigEndian width (256 ^ width - 1 - n)) (.int (.negSucc n)) :=
  ⟨first, _, rfl, hfirst, fun rest => by rw [hread, readSigned_bigEndian hwidth h]⟩

theorem readsLeaf_writeNegative {n : Nat} (h : n < 2 ^ 63) :
    ReadsLeaf (writeNegative n) (.int (.negSucc n)) := by
  unfold writeNegative
  split
  · next hn =>
      have hn' : n.toUInt8.toNat = n := Nat.mod_eq_of_lt (by omega)
      have hfirst : (0xff - n.toUInt8).toNat = 255 - n := by
        rw [UInt8.toNat_sub, hn', show UInt8.toNat 0xff = 255 from rfl]
        omega
      refine ⟨_, [], rfl, isNested_eq_false (by omega), fun rest => ?_⟩
      rw [readLeaf_negative (by omega), hfirst, List.nil_append,
        show ((255 - n : Nat) : Int) - 256 = .negSucc n by omega]
  split
  · exact readsLeaf_signed (by omega) (by omega) rfl fun _ => rfl
  split
  · exact readsLeaf_signed (by omega) (by omega) rfl fun _ => rfl
  split
  · exact readsLeaf_signed (by omega) (by omega) rfl fun _ => rfl
  · exact readsLeaf_signed (by omega) (by omega) rfl fun _ => rfl

theorem readsLeaf_real (x : Binary64) : ReadsLeaf (0xcb :: bigEndian 8 x.bits.toNat) (.real x) := by
  have hread : ∀ bytes, readLeaf 0xcb bytes =
      (readWord 8 bytes).map fun (n, rest) => (.real ⟨n.toUInt64⟩, rest) := fun _ => rfl
  refine ⟨0xcb, _, rfl, rfl, fun rest => ?_⟩
  rw [hread, readWord_bigEndian x.bits.toNat_lt]
  simp

/-! ## Texts -/

theorem ofBytes_utf8 (text : String) : ofBytes (Text.utf8 text) = .text text := by
  rw [ofBytes, Text.ofUtf8?_utf8]

theorem readText_append (bytes rest : List UInt8) :
    readText bytes.length (bytes ++ rest) = some (ofBytes bytes, rest) := by
  rw [readText, takeBytes_append, Option.map_some]

theorem readsLeaf_sized {first : UInt8} {width : Nat} {bytes : List UInt8}
    (h : bytes.length < 256 ^ width) (hfirst : isNested first = false)
    (hread : ∀ bytes, readLeaf first bytes = withLength width bytes readText) :
    ReadsLeaf (first :: bigEndian width bytes.length ++ bytes) (ofBytes bytes) := by
  refine ⟨first, _, List.cons_append, hfirst, fun rest => ?_⟩
  rw [hread, List.append_assoc, withLength_bigEndian h, readText_append]

theorem readsLeaf_text {bytes : List UInt8} (h : bytes.length < 2 ^ 32) :
    ReadsLeaf (textHeader bytes.length ++ bytes) (ofBytes bytes) := by
  unfold textHeader
  split
  · next hlength =>
      have hfirst : (0xa0 + bytes.length.toUInt8).toNat = 0xa0 + bytes.length :=
        toNat_sum (by rw [show UInt8.toNat 0xa0 = 160 from rfl]; omega)
      refine ⟨_, bytes, rfl, isNested_eq_false (by omega), fun rest => ?_⟩
      rw [readLeaf_shortText (by omega) (by omega), hfirst, Nat.add_sub_cancel_left,
        readText_append]
  split
  · exact readsLeaf_sized (by omega) rfl fun _ => rfl
  split
  · exact readsLeaf_sized (by omega) rfl fun _ => rfl
  · exact readsLeaf_sized (by omega) rfl fun _ => rfl

theorem readsLeaf_bytes {bytes : List UInt8} (h : bytes.length < 2 ^ 32) :
    ReadsLeaf (bytesHeader bytes.length ++ bytes) (ofBytes bytes) := by
  unfold bytesHeader
  split
  · exact readsLeaf_sized (by omega) rfl fun _ => rfl
  split
  · exact readsLeaf_sized (by omega) rfl fun _ => rfl
  · exact readsLeaf_sized (by omega) rfl fun _ => rfl

/-! ## Lists and records -/

/-- A header announces a list or a record, and is read as that with whatever stands behind it. -/
def ReadsHeader (bytes : List UInt8) (nested : Nested) : Prop :=
  ∃ first tail, bytes = first :: tail ∧ isNested first = true ∧
    ∀ rest, readNested first (tail ++ rest) = some (nested, rest)

theorem isNested_of_short {first : UInt8} (hlow : 0x80 ≤ first.toNat)
    (hhigh : first.toNat < 0xa0) : isNested first = true := by
  simp [isNested, UInt8.le_iff_toNat_le, UInt8.lt_iff_toNat_lt]
  omega

theorem readsHeader_wide {first : UInt8} {width length : Nat} {nested : Nat → Nested}
    (h : length < 256 ^ width) (hfirst : isNested first = true)
    (hread : ∀ bytes, readNested first bytes =
      (readWord width bytes).map fun (n, rest) => (nested n, rest)) :
    ReadsHeader (first :: bigEndian width length) (nested length) :=
  ⟨first, _, rfl, hfirst, fun rest => by rw [hread, readWord_bigEndian h]; rfl⟩

theorem readsHeader_list {length : Nat} (h : length < 2 ^ 32) :
    ReadsHeader (listHeader length) (.items length) := by
  unfold listHeader
  split
  · next hlength =>
      have hfirst : (0x90 + length.toUInt8).toNat = 0x90 + length :=
        toNat_sum (by rw [show UInt8.toNat 0x90 = 144 from rfl]; omega)
      refine ⟨_, [], rfl, isNested_of_short (by omega) (by omega), fun rest => ?_⟩
      unfold readNested
      simp only [UInt8.le_iff_toNat_le, UInt8.lt_iff_toNat_lt, UInt8.reduceToNat, hfirst,
        Bool.and_eq_true, decide_eq_true_eq]
      rw [if_neg (by omega), if_pos (by omega), Nat.add_sub_cancel_left, List.nil_append]
  split
  · exact readsHeader_wide (by omega) rfl fun _ => rfl
  · exact readsHeader_wide (by omega) rfl fun _ => rfl

theorem readsHeader_record {length : Nat} (h : length < 2 ^ 32) :
    ReadsHeader (recordHeader length) (.entries length) := by
  unfold recordHeader
  split
  · next hlength =>
      have hfirst : (0x80 + length.toUInt8).toNat = 0x80 + length :=
        toNat_sum (by rw [show UInt8.toNat 0x80 = 128 from rfl]; omega)
      refine ⟨_, [], rfl, isNested_of_short (by omega) (by omega), fun rest => ?_⟩
      unfold readNested
      simp only [UInt8.le_iff_toNat_le, UInt8.lt_iff_toNat_lt, UInt8.reduceToNat, hfirst,
        Bool.and_eq_true, decide_eq_true_eq]
      rw [if_pos (by omega), Nat.add_sub_cancel_left, List.nil_append]
  split
  · exact readsHeader_wide (by omega) rfl fun _ => rfl
  · exact readsHeader_wide (by omega) rfl fun _ => rfl

/-- Data of which nothing is lost in MessagePack: whole numbers fit into 64 bits and lengths into
32, bytes are no text, and everything has a value. -/
inductive Storable : Data → Prop
  | null : Storable .null
  | bool (value : Bool) : Storable (.bool value)
  | nat {n : Nat} (h : n < 2 ^ 64) : Storable (.int (.ofNat n))
  | negative {n : Nat} (h : n < 2 ^ 63) : Storable (.int (.negSucc n))
  | real (x : Binary64) : Storable (.real x)
  | text {text : String} (h : text.utf8ByteSize < 2 ^ 32) : Storable (.text text)
  | bytes {bytes : List UInt8} (h : bytes.length < 2 ^ 32) (hno : Text.ofUtf8? bytes = none) :
      Storable (.bytes bytes)
  | list {items : List Data} (h : items.length < 2 ^ 32) (hitems : ∀ item ∈ items, Storable item) :
      Storable (.list items)
  | record {entries : List (Data × Data)} (h : entries.length < 2 ^ 32)
      (hkeys : ∀ entry ∈ entries, Storable entry.1)
      (hvalues : ∀ entry ∈ entries, Storable entry.2) : Storable (.record entries)

/-- The data is read back from the front of its bytes by a reader that may go deep enough. -/
def Reads (data : Data) : Prop :=
  ∀ depth rest, 2 * (write data).length ≤ depth + 1 →
    readValue depth (write data ++ rest) = some (data, rest)

theorem ReadsLeaf.reads {data : Data} (h : ReadsLeaf (write data) data) : Reads data := by
  obtain ⟨first, tail, hbytes, hfirst, hread⟩ := h
  intro depth rest hdepth
  rw [hbytes, List.length_cons] at hdepth
  obtain ⟨depth, rfl⟩ := Nat.exists_eq_succ_of_ne_zero (show depth ≠ 0 by omega)
  rw [hbytes, List.cons_append, readValue, hfirst, if_neg Bool.false_ne_true, hread]

theorem length_write_pos {data : Data} (h : Reads data) : 0 < (write data).length := by
  rw [List.length_pos_iff]
  intro hnil
  have hread := h 1 [] (by rw [hnil]; decide)
  rw [hnil, List.append_nil, show readValue 1 [] = none from rfl] at hread
  contradiction

theorem readItems_writeItems {items : List Data} (h : ∀ item ∈ items, Reads item) {depth : Nat}
    (hdepth : 2 * (writeItems items).length ≤ depth) (rest : List UInt8) :
    readItems depth items.length (writeItems items ++ rest) = some (items, rest) := by
  induction items generalizing depth with
  | nil => cases depth <;> rfl
  | cons item more ih =>
      have hitem := h item List.mem_cons_self
      have hpos := length_write_pos hitem
      rw [writeItems, List.length_append] at hdepth
      obtain ⟨depth, rfl⟩ := Nat.exists_eq_succ_of_ne_zero (show depth ≠ 0 by omega)
      rw [writeItems, List.append_assoc, List.length_cons, readItems, hitem depth _ (by omega)]
      simp [ih (fun other hother => h other (List.mem_cons_of_mem _ hother))
        (show 2 * (writeItems more).length ≤ depth by omega)]

theorem readEntries_writeEntries {entries : List (Data × Data)}
    (hkeys : ∀ entry ∈ entries, Reads entry.1) (hvalues : ∀ entry ∈ entries, Reads entry.2)
    {depth : Nat} (hdepth : 2 * (writeEntries entries).length ≤ depth) (rest : List UInt8) :
    readEntries depth entries.length (writeEntries entries ++ rest) = some (entries, rest) := by
  induction entries generalizing depth with
  | nil => cases depth <;> rfl
  | cons entry more ih =>
      obtain ⟨key, value⟩ := entry
      have hkey : Reads key := hkeys (key, value) List.mem_cons_self
      have hvalue : Reads value := hvalues (key, value) List.mem_cons_self
      have hpos := length_write_pos hkey
      rw [writeEntries, List.length_append, List.length_append] at hdepth
      obtain ⟨depth, rfl⟩ := Nat.exists_eq_succ_of_ne_zero (show depth ≠ 0 by omega)
      rw [writeEntries, List.append_assoc, List.append_assoc, List.length_cons, readEntries,
        hkey depth _ (by omega)]
      simp [hvalue depth _ (by omega),
        ih (fun other hother => hkeys other (List.mem_cons_of_mem _ hother))
          (fun other hother => hvalues other (List.mem_cons_of_mem _ hother))
          (show 2 * (writeEntries more).length ≤ depth by omega)]

/-- What is storable is read back, whatever bytes follow. -/
theorem Storable.reads {data : Data} (h : Storable data) : Reads data := by
  induction h with
  | null => exact ReadsLeaf.reads ⟨0xc0, [], rfl, rfl, fun _ => rfl⟩
  | bool value =>
      cases value with
      | false => exact ReadsLeaf.reads ⟨0xc2, [], rfl, rfl, fun _ => rfl⟩
      | true => exact ReadsLeaf.reads ⟨0xc3, [], rfl, rfl, fun _ => rfl⟩
  | nat h => exact ReadsLeaf.reads (by rw [write]; exact readsLeaf_writeNat h)
  | negative h => exact ReadsLeaf.reads (by rw [write]; exact readsLeaf_writeNegative h)
  | real x => exact ReadsLeaf.reads (by rw [write]; exact readsLeaf_real x)
  | @text text h =>
      have hread : ReadsLeaf (write (.text text)) _ := readsLeaf_text h
      rw [ofBytes_utf8] at hread
      exact hread.reads
  | @bytes bytes h hno =>
      have hread := readsLeaf_bytes h
      rw [ofBytes, hno] at hread
      exact ReadsLeaf.reads hread
  | @list items h hitems ih =>
      obtain ⟨first, tail, hbytes, hfirst, hread⟩ := readsHeader_list h
      intro depth rest hdepth
      rw [write, hbytes, List.length_append, List.length_cons] at hdepth
      obtain ⟨depth, rfl⟩ := Nat.exists_eq_succ_of_ne_zero (show depth ≠ 0 by omega)
      rw [write, hbytes, List.append_assoc, List.cons_append, readValue, if_pos hfirst, hread]
      simp only [readItems_writeItems ih (show 2 * (writeItems items).length ≤ depth by omega),
        Option.map_some]
  | @record entries h hkeys hvalues ihkeys ihvalues =>
      obtain ⟨first, tail, hbytes, hfirst, hread⟩ := readsHeader_record h
      intro depth rest hdepth
      rw [write, hbytes, List.length_append, List.length_cons] at hdepth
      obtain ⟨depth, rfl⟩ := Nat.exists_eq_succ_of_ne_zero (show depth ≠ 0 by omega)
      rw [write, hbytes, List.append_assoc, List.cons_append, readValue, if_pos hfirst, hread]
      simp only [readEntries_writeEntries ihkeys ihvalues
        (show 2 * (writeEntries entries).length ≤ depth by omega), Option.map_some]

/-- A storable value and what stands behind it come apart again. -/
theorem read?_write {data : Data} (h : Storable data) (rest : List UInt8) :
    read? (write data ++ rest) = some (data, rest) :=
  h.reads _ _ (by rw [List.length_append]; omega)

/-- What keeps within 64 and 32 bits. -/
def limits : Limits where
  whole := Limits.word
  real _ := True
  text text := text.utf8ByteSize < 2 ^ 32
  length n := n < 2 ^ 32
  whole_of_lt := Limits.word_of_lt
  text_of_short text h := Nat.lt_trans h (by decide)
  length_of_few n h := Nat.lt_trans h (by decide)

theorem storable_of_within {data : Data} (h : data.Within limits) : Storable data := by
  induction h with
  | null => exact .null
  | bool value => exact .bool value
  | @int n hn =>
      obtain ⟨hlow, hhigh⟩ := hn
      cases n with
      | ofNat n => exact .nat (Int.ofNat_lt.mp hhigh)
      | negSucc n => exact .negative (by omega)
  | @real x _ => exact .real x
  | text h => exact .text h
  | list hlength _ ih => exact .list hlength ih
  | record hlength hkeys _ ih =>
      refine .record hlength (fun entry hentry => ?_) ih
      obtain ⟨name, hname, hshort⟩ := hkeys entry hentry
      rw [hname]
      exact .text hshort

end MessagePack

/-- A dump whose counts fit into 64 bits and whose lengths fit into 32 comes back from MessagePack
with every amount as it was, whatever bytes follow. -/
theorem Dump.ofMessagePack_toMessagePack (dump : Dump Binary64)
    (hcounts : ∀ n ∈ dump.counts, n < 2 ^ 64)
    (htexts : ∀ text ∈ dump.texts, text.utf8ByteSize < 2 ^ 32)
    (hlengths : ∀ n ∈ dump.lengths, n < 2 ^ 32) (rest : List UInt8) :
    ofMessagePack (dump.toMessagePack ++ rest) = .ok dump := by
  have hwithin := dump.within MessagePack.limits hcounts (fun _ _ => trivial) htexts hlengths
  have hread := MessagePack.read?_write (MessagePack.storable_of_within hwithin) rest
  have hdump := Dump.ofData?_masked (fun _ => true) MessagePack.dialect hcounts
  rw [Data.masked_true, if_pos (List.all_eq_true.mpr fun _ _ => rfl)] at hdump
  rw [ofMessagePack, toMessagePack, hread, Option.bind_some]
  simp only [hdump]

/-- A method without a source and one with two rows, no numbers among the amounts, and the
largest numbers of their width. -/
def Dump.specimen : Dump Binary64 where
  version := 1
  programVersion := "0.1.0"
  measureMode := .processTime
  contexts := [{
    thread := 0xFFFFFFFFFFFFFFFF
    fiber := 0
    methods := [
      { key := 0x80000000FFFFFFFF
        method := ⟨⟨.classSingleton, "Größe\n\"λ\""⟩, ""⟩
        source := none
        measurement := ⟨.infinity, .negativeInfinity, ⟨0x7FF8000000000001⟩, 0xFFFFFFFFFFFFFFFF⟩
        recursive := true
        root := false
        excluded := false
        allocations := [] },
      { key := 127
        method := ⟨⟨.plain, "App"⟩, "run"⟩
        source := some ⟨"app.rb", 0xFFFFFFFF⟩
        measurement := ⟨.negativeZero, .quietNaN, .indefinite, 65536⟩
        recursive := false
        root := true
        excluded := true
        allocations := [⟨⟨"app.rb", 11, "String"⟩, 255, 256⟩, ⟨⟨"", 0, ""⟩, 0, 65535⟩] }]
    nodes := [
      { method := 1, parent := none, measurement := ⟨.zero, .zero, .quietNaN, 1⟩, site := .none },
      { method := 0, parent := some 0, measurement := .empty, site := ⟨some "app.rb", 128⟩ }] }]

theorem Dump.specimen_comes_back :
    (∀ n ∈ specimen.counts, n < 2 ^ 64) ∧
      (∀ text ∈ specimen.texts, text.utf8ByteSize < 2 ^ 32) ∧
      (∀ n ∈ specimen.lengths, n < 2 ^ 32) ∧
      ofMessagePack (specimen.toMessagePack ++ [0xC1, 0x80]) = .ok specimen :=
  ⟨by decide, by decide, by decide,
    specimen.ofMessagePack_toMessagePack (by decide) (by decide) (by decide) _⟩

end CallLedger
