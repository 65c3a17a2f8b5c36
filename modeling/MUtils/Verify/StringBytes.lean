import MUtils.String.StringUtils
import MUtils.Theory.PercentCoding
import MUtils.Theory.Utf16

/-!
# Functions that look at the bytes of a string

`string_url_encode` keeps the state of its stream from one character to the next (`Ready`), and
writes for each byte the byte itself or its escape (`encodeByte`); the standard decoder undoes this.

`string_utf8_length` takes the continuation bytes of a character together with the first byte of the
next one. It adds up the bytes, and one more if the text ends with continuation bytes
(`string_utf8_length_eq`): the number of code points just for ASCII text.

`string_count_utf8_bytes` counts the four bytes of a pair of surrogates at the high one.
-/

namespace MUtils
open Outcome PercentCoding

/-! ### string_url_encode -/

section
variable {os : OStringStream} {c : UInt8} {n : Nat}

/-- The state of the stream between two characters. -/
structure OStringStream.Ready (os : OStringStream) : Prop where
  fill : os.fillChar = '0'.toUInt8
  base : os.hex = true
  lower : os.uppercase = false
  width : os.width = 0

theorem promote_eq (c : UInt8) :
    promote c = if c.toNat < 128 then (c.toNat : Int) else c.toNat - 256 := by
  have hlt := c.toNat_lt
  rw [promote, Int8.toInt, UInt8.toBitVec_toInt8, BitVec.toInt_eq_toNat_cond]
  simp only [UInt8.toNat_toBitVec]
  split_ifs <;> omega

/-- What is kept as it is are the unreserved characters. -/
theorem kept_iff (c : UInt8) :
    (isalnum (promote c) || c == '-'.toUInt8 || c == '_'.toUInt8 || c == '.'.toUInt8 ||
      c == '~'.toUInt8) = true ↔ Unreserved c := by
  have halnum : isalnum (promote c) = true ↔
      Between '0' '9' c ∨ Between 'A' 'Z' c ∨ Between 'a' 'z' c := by
    have hlt := c.toNat_lt
    have hcodes : '0'.toNat = 48 ∧ '9'.toNat = 57 ∧ 'A'.toNat = 65 ∧ 'Z'.toNat = 90 ∧
        'a'.toNat = 97 ∧ 'z'.toNat = 122 := by decide
    obtain ⟨h0, h9, hA, hZ, ha, hz⟩ := hcodes
    simp only [isalnum, promote_eq, Between, h0, h9, hA, hZ, ha, hz, Bool.or_eq_true,
      Bool.and_eq_true, decide_eq_true_eq]
    split_ifs <;> omega
  simp only [Unreserved, Bool.or_eq_true, halnum, beq_iff_eq, or_assoc]

/-- What a byte is encoded as. -/
def encodeByte (c : UInt8) : List UInt8 := if Unreserved c then [c] else escape c

/-- The digits of a byte, filled up to two. -/
theorem fill_digits (hbase : os.hex = true) (hupper : os.uppercase = true) (hn : n < 256) :
    List.replicate (2 - (os.digits n).length) '0'.toUInt8 ++ os.digits n =
      [hexDigit (n / 16), hexDigit (n % 16)] := by
  rcases Nat.lt_or_ge n 16 with hlt | hge
  · have hdigits : os.digits n = [hexDigit n] := by
      simp [OStringStream.digits, hbase, hupper, Nat.toDigits_of_lt_base hlt, hexDigit]
    have hzero : '0'.toUInt8 = hexDigit 0 := by decide
    rw [hdigits, Nat.div_eq_of_lt hlt, Nat.mod_eq_of_lt hlt, hzero]
    rfl
  · have hdigits : os.digits n = [hexDigit (n / 16), hexDigit (n % 16)] := by
      simp [OStringStream.digits, hbase, hupper, Nat.toDigits_of_base_le (by decide) hge,
        Nat.toDigits_of_lt_base (show n / 16 < 16 by omega), hexDigit]
    rw [hdigits]
    rfl

theorem urlEncodeChar_eq (H : os.Ready) (c : UInt8) :
    urlEncodeChar os c = { os with str := os.str ++ encodeByte c } := by
  obtain ⟨str, fillChar, hex, uppercase, width⟩ := os
  obtain ⟨hfill, hbase, hlower, hwidth⟩ := H
  simp only at hfill hbase hlower hwidth
  subst hfill hbase hlower hwidth
  rw [urlEncodeChar, encodeByte]
  by_cases hc : Unreserved c
  · rw [if_pos ((kept_iff c).2 hc), if_pos hc]
    simp [OStringStream.putChar, OStringStream.put]
  · rw [if_neg fun h => hc ((kept_iff c).1 h), if_neg hc]
    simp only [OStringStream.putChar, OStringStream.putInt, OStringStream.put]
    congr 1
    rw [List.append_assoc, fill_digits rfl rfl c.toNat_lt]
    simp [escape]

theorem foldl_urlEncodeChar (H : os.Ready) (value : List UInt8) :
    value.foldl urlEncodeChar os = { os with str := os.str ++ value.flatMap encodeByte } := by
  induction value generalizing os with
  | nil => simp
  | cons c value ih =>
    have hready : { os with str := os.str ++ encodeByte c }.Ready :=
      ⟨H.fill, H.base, H.lower, H.width⟩
    rw [List.foldl_cons, urlEncodeChar_eq H, ih hready, List.flatMap_cons, List.append_assoc]

theorem string_url_encode_eq (value : List UInt8) :
    string_url_encode value = value.flatMap encodeByte := by
  rw [string_url_encode, foldl_urlEncodeChar ⟨rfl, rfl, rfl, rfl⟩]
  rfl

theorem group_encodeByte (c : UInt8) : Group (encodeByte c) := by
  unfold encodeByte
  split
  · next hc => exact .unreserved hc
  · exact group_escape c

theorem percentDecode_encodeByte (c : UInt8) (s : List UInt8) :
    percentDecode (encodeByte c ++ s) = (percentDecode s).map (c :: ·) := by
  unfold encodeByte
  split
  · next hc => exact percentDecode_self hc.ne_percent s
  · exact percentDecode_escape_append c s

/-- **URL encoding is lossless**: it consists of unreserved characters and escapes, and the standard
decoder gives back the value. -/
theorem string_url_encode_lossless :
    (∀ value, ∃ groups : List (List UInt8), string_url_encode value = groups.flatten ∧
      ∀ g ∈ groups, Group g) ∧
    (∀ value, percentDecode (string_url_encode value) = some value) ∧
    Function.Injective string_url_encode := by
  have hdecode : ∀ value, percentDecode (string_url_encode value) = some value := fun value => by
    rw [string_url_encode_eq, percentDecode_flatMap percentDecode_encodeByte]
  refine ⟨fun value => ?_, hdecode, fun value value' heq => ?_⟩
  · refine ⟨value.map encodeByte, ?_, fun g hg => ?_⟩
    · rw [string_url_encode_eq, List.flatMap_def]
    · obtain ⟨c, -, rfl⟩ := List.mem_map.1 hg
      exact group_encodeByte c
  · have hsome := (hdecode value).symm.trans ((congrArg percentDecode heq).trans (hdecode value'))
    exact Option.some.inj hsome

end

/-! ### string_utf8_length -/

section
variable {b : UInt8} {conts s : List UInt8} {len n : Nat} {c : Char} {chars : List Char}

/-- The bytes that `(*s & 0xc0) == 0x80` holds for. -/
def Continuation (b : UInt8) : Prop := b &&& 0xc0 = 0x80

instance : DecidablePred Continuation := fun _ => inferInstanceAs (Decidable (_ = _))

theorem Continuation.ne_zero (h : Continuation b) : b ≠ 0 := by
  rintro rfl
  exact absurd h (by decide)

/-- The encoding of a code point: a first byte and up to three continuation bytes. -/
structure Encoded (c : Char) (lead : UInt8) (conts : List UInt8) : Prop where
  encode : String.utf8EncodeChar c = lead :: conts
  lead_ne : ¬Continuation lead
  conts_all : ∀ b ∈ conts, Continuation b
  length_le : conts.length ≤ 3
  ascii : conts = [] ↔ c.toNat < 128
  lead_zero : lead = 0 → c = '\x00'

theorem Encoded.multi {lead : UInt8} (hc : 127 < c.toNat)
    (hencode : String.utf8EncodeChar c = lead :: b :: conts)
    (hlead : ¬Continuation lead ∧ lead ≠ 0) (hconts : ∀ b' ∈ b :: conts, Continuation b')
    (hlen : conts.length ≤ 2) : Encoded c lead (b :: conts) where
  encode := hencode
  lead_ne := hlead.1
  conts_all := hconts
  length_le := Nat.succ_le_succ hlen
  ascii := iff_of_false (List.cons_ne_nil _ _) (by omega)
  lead_zero h := (hlead.2 h).elim

theorem exists_encoded (c : Char) : ∃ lead conts, Encoded c lead conts := by
  have hone : ∀ k < 128, ¬Continuation (UInt8.ofNat k) := by decide
  have htwo : ∀ k < 32, ¬Continuation (UInt8.ofNat (k + 192)) ∧ UInt8.ofNat (k + 192) ≠ 0 := by
    decide
  have hthree : ∀ k < 16, ¬Continuation (UInt8.ofNat (k + 224)) ∧ UInt8.ofNat (k + 224) ≠ 0 := by
    decide
  have hfour : ∀ k < 8, ¬Continuation (UInt8.ofNat (k + 240)) ∧ UInt8.ofNat (k + 240) ≠ 0 := by
    decide
  have hconts : ∀ ks : List Nat, ∀ b ∈ ks.map fun k => UInt8.ofNat (k % 64 + 128),
      Continuation b := by
    have hall : ∀ k < 64, Continuation (UInt8.ofNat (k + 128)) := by decide
    intro ks b hb
    obtain ⟨k, -, rfl⟩ := List.mem_map.1 hb
    exact hall _ (Nat.mod_lt k (by decide))
  have hencode := String.utf8EncodeChar.eq_1 c
  rw [show c.val.toNat = c.toNat from rfl] at hencode
  by_cases h1 : c.toNat ≤ 127
  · rw [if_pos h1] at hencode
    refine ⟨_, [], hencode, hone _ (by omega), by simp, by simp, by simp; omega, fun hzero => ?_⟩
    have hzero := congrArg UInt8.toNat hzero
    rw [UInt8.toNat_ofNat_of_lt' (show c.toNat < 256 by omega)] at hzero
    exact Char.toNat_inj.1 hzero
  rw [if_neg h1] at hencode
  by_cases h2 : c.toNat ≤ 2047
  · rw [if_pos h2] at hencode
    exact ⟨_, _, .multi (by omega) hencode (htwo _ (Nat.mod_lt _ (by decide)))
      (hconts [c.toNat]) (by simp)⟩
  rw [if_neg h2] at hencode
  by_cases h3 : c.toNat ≤ 65535
  · rw [if_pos h3] at hencode
    exact ⟨_, _, .multi (by omega) hencode (hthree _ (Nat.mod_lt _ (by decide)))
      (hconts [c.toNat / 64, c.toNat]) (by simp)⟩
  · rw [if_neg h3] at hencode
    exact ⟨_, _, .multi (by omega) hencode (hfour _ (Nat.mod_lt _ (by decide)))
      (hconts [c.toNat / 4096, c.toNat / 64, c.toNat]) (by simp)⟩

/-- Continuation bytes are counted up to the byte that ends them, which is taken with them unless it
is the terminator. -/
theorem utf8Group_append (hconts : ∀ b ∈ conts, Continuation b) (hb : ¬Continuation b)
    (hlen : len + conts.length ≤ 4) :
    utf8Group len (conts ++ b :: s) =
      .ok (len + conts.length, if b = 0 then b :: s else s) := by
  induction conts generalizing len with
  | nil =>
    rw [List.length_nil] at hlen
    rw [List.nil_append, utf8Group]
    by_cases hzero : b = 0
    · rw [if_neg fun h => h.2 hzero, if_pos hzero]
      rfl
    · have hb : b &&& 0xc0 ≠ 0x80 := hb
      rw [if_pos ⟨hlen, hzero⟩, if_pos hb, if_neg hzero]
      rfl
  | cons d conts ih =>
    have hd := hconts d List.mem_cons_self
    have hmask : d &&& 0xc0 = 0x80 := hd
    rw [List.length_cons] at hlen
    rw [List.cons_append, utf8Group, if_pos ⟨by omega, hd.ne_zero⟩, if_neg (not_not.2 hmask),
      ih (fun x hx => hconts x (List.mem_cons_of_mem _ hx)) (by omega), List.length_cons,
      Nat.add_assoc, Nat.add_comm 1]

/-- A round of the outer loop. -/
theorem utf8LengthFrom_append (hconts : ∀ b ∈ conts, Continuation b) (hlen : conts.length ≤ 3)
    (hb : ¬Continuation b) (hne : conts ≠ [] ∨ b ≠ 0) :
    utf8LengthFrom n (conts ++ b :: s) =
      utf8LengthFrom (n + (1 + conts.length)) (if b = 0 then b :: s else s) := by
  have hgroup := @utf8Group_append b conts s 1 hconts hb (by omega)
  obtain ⟨d, w, hcut, hd⟩ : ∃ d w, conts ++ b :: s = d :: w ∧ d ≠ 0 := by
    cases conts with
    | nil => exact ⟨b, s, rfl, hne.resolve_left (not_not.2 rfl)⟩
    | cons d conts => exact ⟨d, conts ++ b :: s, rfl, (hconts d List.mem_cons_self).ne_zero⟩
  rw [hcut] at hgroup ⊢
  rw [utf8LengthFrom, dif_neg hd]
  split
  · next herror => cases hgroup.symm.trans herror
  · next hok =>
    cases hgroup.symm.trans hok
    rfl

/-- What the continuation bytes at the end of the text add, where `conts` are those of the character
before `chars`. -/
def trailing (conts : List UInt8) : List Char → Nat
  | [] => if conts = [] then 0 else 1
  | c :: chars => trailing (String.utf8EncodeChar c).tail chars

/-- `conts` are the continuation bytes of the character whose first byte has been read. -/
theorem utf8LengthFrom_eq (hconts : ∀ b ∈ conts, Continuation b) (hlen : conts.length ≤ 3)
    (hnul : '\x00' ∉ chars) :
    utf8LengthFrom n (conts ++ (chars.flatMap String.utf8EncodeChar ++ 0 :: s)) =
      .ok (n + conts.length + (chars.flatMap String.utf8EncodeChar).length +
        trailing conts chars) := by
  induction chars generalizing n conts with
  | nil =>
    rw [List.flatMap_nil, List.nil_append, trailing]
    by_cases hnil : conts = []
    · rw [hnil, List.nil_append, utf8LengthFrom, dif_pos rfl, if_pos rfl]
      rfl
    · rw [utf8LengthFrom_append hconts hlen (by decide) (.inl hnil), if_pos rfl, if_neg hnil,
        utf8LengthFrom, dif_pos rfl, List.length_nil]
      congr 1
      omega
  | cons c chars ih =>
    obtain ⟨lead, conts', H⟩ := exists_encoded c
    obtain ⟨hc, hnul⟩ := not_or.1 (mt List.mem_cons.2 hnul)
    have hlead : lead ≠ 0 := fun h => hc (H.lead_zero h).symm
    rw [List.flatMap_cons, trailing, H.encode, List.cons_append, List.cons_append,
      utf8LengthFrom_append hconts hlen H.lead_ne (.inr hlead), if_neg hlead, List.append_assoc,
      ih H.conts_all H.length_le hnul, List.length_cons, List.length_append, List.tail_cons]
    congr 1
    omega

/-- The number of bytes, and one more if the text does not end with an ASCII character. -/
theorem string_utf8_length_eq (hnul : '\x00' ∉ chars) :
    string_utf8_length (chars.flatMap String.utf8EncodeChar ++ 0 :: s) =
      .ok ((chars.flatMap String.utf8EncodeChar).length + trailing [] chars) := by
  have hrun := @utf8LengthFrom_eq [] s 0 chars (by simp) (by simp) hnul
  rw [List.nil_append, List.length_nil, Nat.zero_add] at hrun
  exact hrun

theorem length_le_utf8 : chars.length ≤ (chars.flatMap String.utf8EncodeChar).length := by
  induction chars with
  | nil => exact Nat.le_refl 0
  | cons c chars ih =>
    obtain ⟨lead, conts, H⟩ := exists_encoded c
    rw [List.flatMap_cons, H.encode, List.length_append, List.length_cons, List.length_cons]
    omega

/-- As many bytes as code points. -/
theorem length_utf8_eq_iff : (chars.flatMap String.utf8EncodeChar).length = chars.length ↔
    ∀ c ∈ chars, c.toNat < 128 := by
  induction chars with
  | nil => simp
  | cons c chars ih =>
    obtain ⟨lead, conts, H⟩ := exists_encoded c
    have hle := @length_le_utf8 chars
    rw [List.forall_mem_cons, ← ih, ← H.ascii, ← List.length_eq_zero_iff, List.flatMap_cons,
      H.encode, List.length_append, List.length_cons, List.length_cons]
    omega

theorem trailing_ascii (hconts : conts = []) (h : ∀ c ∈ chars, c.toNat < 128) :
    trailing conts chars = 0 := by
  induction chars generalizing conts with
  | nil => exact if_pos hconts
  | cons c chars ih =>
    obtain ⟨lead, conts, H⟩ := exists_encoded c
    obtain ⟨hc, h⟩ := List.forall_mem_cons.1 h
    rw [trailing, H.encode, List.tail_cons]
    exact ih (H.ascii.2 hc) h

/-- **The result is the number of code points just for ASCII text.** -/
theorem string_utf8_length_counts_iff (s : List UInt8) (hnul : '\x00' ∉ chars) :
    string_utf8_length (chars.flatMap String.utf8EncodeChar ++ 0 :: s) = .ok chars.length ↔
      ∀ c ∈ chars, c.toNat < 128 := by
  have hle := @length_le_utf8 chars
  rw [string_utf8_length_eq hnul, Except.ok.injEq]
  constructor
  · intro heq
    exact length_utf8_eq_iff.1 (by omega)
  · intro h
    rw [length_utf8_eq_iff.2 h, trailing_ascii rfl h, Nat.add_zero]

theorem string_utf8_length_counts_iff_ascii :
    string_utf8_length (['a', 'b'].flatMap String.utf8EncodeChar ++ [0]) = .ok 2 :=
  (string_utf8_length_counts_iff [] (by decide)).2 (by simp)

/-- The two bytes of one code point are counted as three. -/
theorem string_utf8_length_two_bytes : '\x00' ∉ ['é'] ∧
    string_utf8_length (['é'].flatMap String.utf8EncodeChar ++ [0]) = .ok 3 ∧
    3 ≠ ['é'].length := by
  refine ⟨by decide, ?_, by decide⟩
  rw [string_utf8_length_eq (by decide)]
  decide

end

/-! ### string_count_utf8_bytes -/

section
open Utf16
variable {u v : UInt16}

theorem length_utf8EncodeChar_eq (c : Char) : (String.utf8EncodeChar c).length =
    if c.toNat ≤ 0x7f then 1
    else if c.toNat ≤ 0x7ff then 2
    else if c.toNat ≤ 0xffff then 3
    else 4 := by
  rw [String.utf8EncodeChar.eq_1, show c.val.toNat = c.toNat from rfl]
  split_ifs <;> rfl

/-- A unit that is a character. -/
theorem string_count_utf8_bytes_unit (hhigh : ¬IsHigh u) (hlow : ¬IsLow u) :
    string_count_utf8_bytes u.toNat = (String.utf8EncodeChar (.ofNat u.toNat)).length := by
  have hlt : u.toNat < 0x10000 := u.toNat_lt
  rw [length_utf8EncodeChar_eq, toNat_ofNat_unit hhigh hlow, string_count_utf8_bytes]
  unfold IsHigh IsLow at *
  split_ifs <;> omega

theorem string_count_utf8_bytes_pair (hhigh : IsHigh u) (hlow : IsLow v) :
    string_count_utf8_bytes u.toNat + string_count_utf8_bytes v.toNat =
      (String.utf8EncodeChar (ofPair u v)).length := by
  rw [length_utf8EncodeChar_eq, toNat_ofPair hhigh hlow, string_count_utf8_bytes,
    string_count_utf8_bytes]
  unfold IsHigh IsLow at *
  split_ifs <;> omega

theorem string_count_utf8_bytes_char (c : Char) :
    ((encodeChar c).map (string_count_utf8_bytes ·.toNat)).sum =
      (String.utf8EncodeChar c).length := by
  obtain ⟨u, hhigh, hlow, hc⟩ | ⟨u, v, hhigh, hlow, hc⟩ := char_cases c
  · rw [hc, encodeChar_ofNat hhigh hlow, ← string_count_utf8_bytes_unit hhigh hlow]
    rfl
  · rw [hc, encodeChar_ofPair hhigh hlow, ← string_count_utf8_bytes_pair hhigh hlow]
    rfl

theorem string_count_utf8_bytes_encode (text : List Char) :
    ((encode text).map (string_count_utf8_bytes ·.toNat)).sum =
      (text.flatMap String.utf8EncodeChar).length := by
  induction text with
  | nil => rfl
  | cons c text ih =>
    rw [encode, List.flatMap_cons, List.map_append, List.sum_append, string_count_utf8_bytes_char,
      ← encode, ih, List.flatMap_cons, List.length_append]

/-- **The counts of the units of a text add up to the bytes of its UTF-8 encoding.** -/
theorem string_count_utf8_bytes_sum {units : List UInt16} {text : List Char}
    (h : decode units = some text) :
    (units.map (string_count_utf8_bytes ·.toNat)).sum =
      (text.flatMap String.utf8EncodeChar).length := by
  rw [decode_eq_some_iff.mp h]
  exact string_count_utf8_bytes_encode text

/-- A letter of each length. -/
theorem string_count_utf8_bytes_sum_four :
    decode [0x61, 0xe9, 0x20ac, 0xd83d, 0xde00] = some ['a', 'é', '€', '😀'] ∧
      ([0x61, 0xe9, 0x20ac, 0xd83d, 0xde00].map fun u : UInt16 =>
        string_count_utf8_bytes u.toNat).sum =
          (['a', 'é', '€', '😀'].flatMap String.utf8EncodeChar).length := by
  have h : decode [0x61, 0xe9, 0x20ac, 0xd83d, 0xde00] = some ['a', 'é', '€', '😀'] := by decide
  exact ⟨h, string_count_utf8_bytes_sum h⟩

end

end MUtils
