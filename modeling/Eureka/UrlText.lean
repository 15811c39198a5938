import Mathlib
import Eureka.JavaText

/-! Percent-encoded text: `encodeURIComponent`, and decoders that read a run of escapes as UTF-8.
One decoding undoes the encoding, and every decoded escape makes a text shorter. -/
namespace Eureka.UrlText
open WordBytes JavaText

def percent : JChar := 0x25#16

def plus : JChar := 0x2b#16

def space : JChar := 0x20#16

/-- What stands for malformed bytes. -/
def replacement : JChar := 0xfffd#16

/-- A UTF-8 decoder between two bytes: how many bytes the character still needs, its bits so far,
and the bounds of the next byte. -/
structure Utf8State where
  needed : ℕ
  point : ℕ
  lower : ℕ
  upper : ℕ
  deriving DecidableEq, Repr

def idle : Utf8State := ⟨0, 0, 0x80, 0xbf⟩

/-- The UTF-16 units of a code point. Three bytes that spell a surrogate are malformed. -/
def units (point : ℕ) : JString :=
  if point < 0x10000 then
    if 0xd800 ≤ point ∧ point < 0xe000 then [replacement] else [BitVec.ofNat 16 point]
  else [BitVec.ofNat 16 (0xd800 + (point - 0x10000) / 1024),
    BitVec.ofNat 16 (0xdc00 + (point - 0x10000) % 1024)]

def start (b : Byte) : JString × Utf8State :=
  let n := b.toNat
  if n < 0x80 then ([b.setWidth 16], idle)
  else if 0xc2 ≤ n ∧ n ≤ 0xdf then ([], ⟨1, n - 0xc0, 0x80, 0xbf⟩)
  else if 0xe0 ≤ n ∧ n ≤ 0xef then ([], ⟨2, n - 0xe0, if n = 0xe0 then 0xa0 else 0x80, 0xbf⟩)
  else if 0xf0 ≤ n ∧ n ≤ 0xf4 then
    ([], ⟨3, n - 0xf0, if n = 0xf0 then 0x90 else 0x80, if n = 0xf4 then 0x8f else 0xbf⟩)
  else ([replacement], idle)

/-- A byte out of its bounds ends the character before it and starts the next one. -/
def Utf8State.step (s : Utf8State) (b : Byte) : JString × Utf8State :=
  if s.needed = 0 then start b
  else if s.lower ≤ b.toNat ∧ b.toNat ≤ s.upper then
    let point := 64 * s.point + b.toNat % 64
    if s.needed = 1 then (units point, idle) else ([], ⟨s.needed - 1, point, 0x80, 0xbf⟩)
  else (replacement :: (start b).1, (start b).2)

def Utf8State.run (s : Utf8State) : Bytes → JString × Utf8State
  | [] => ([], s)
  | b :: bs => ((s.step b).1 ++ ((s.step b).2.run bs).1, ((s.step b).2.run bs).2)

/-- The end of the bytes: an unfinished character is malformed. -/
def Utf8State.flush (s : Utf8State) : JString := if s.needed = 0 then [] else [replacement]

def hexDigit (n : ℕ) : JChar := BitVec.ofNat 16 (if n < 10 then 0x30 + n else 0x37 + n)

def hexValue (c : JChar) : Option ℕ :=
  if isDigit c then some (c.toNat - 0x30)
  else if 0x41#16 ≤ c ∧ c ≤ 0x46#16 then some (c.toNat - 0x37)
  else if 0x61#16 ≤ c ∧ c ≤ 0x66#16 then some (c.toNat - 0x57)
  else none

def hexByte (high low : JChar) : Option Byte :=
  (hexValue high).bind fun h => (hexValue low).map fun l => BitVec.ofNat 8 (16 * h + l)

def escapeByte (b : Byte) : JString := [percent, hexDigit (b.toNat / 16), hexDigit (b.toNat % 16)]

def escape (bs : Bytes) : JString := bs.flatMap escapeByte

/-- The characters that `encodeURIComponent` leaves as they are. -/
def isUnreserved (c : JChar) : Bool :=
  isDigit c ∨ (0x41#16 ≤ c ∧ c ≤ 0x5a#16) ∨ (0x61#16 ≤ c ∧ c ≤ 0x7a#16) ∨ (java "-_.!~*'()").contains c

/-- `none` where it throws: at a surrogate on its own. -/
def encodeURIComponent : JString → Option JString
  | [] => some []
  | c :: cs =>
    if isUnreserved c then (encodeURIComponent cs).map (c :: ·)
    else if isHighSurrogate c then
      match cs with
      | d :: ds =>
        if isLowSurrogate d then (encodeURIComponent ds).map (escape (encodePair c d) ++ ·) else none
      | [] => none
    else if isLowSurrogate c then none
    else (encodeURIComponent cs).map (escape (encodeUnit c) ++ ·)

/-- The bytes of a run of escapes are decoded together. `other` is what a character that is not
escaped stands for; `none` at a malformed escape. -/
def unescape (other : JChar → JChar) (s : Utf8State) : JString → Option JString
  | [] => some s.flush
  | c :: cs =>
    if c = percent then
      match cs with
      | x :: y :: rest =>
        (hexByte x y).bind fun b => (unescape other (s.step b).2 rest).map ((s.step b).1 ++ ·)
      | _ => none
    else (unescape other idle cs).map (s.flush ++ other c :: ·)

/-- What `URI.getQuery` does to the query component. -/
def uriDecode : JString → Option JString := unescape id idle

def plusToSpace (c : JChar) : JChar := if c = plus then space else c

/-- `URLDecoder.decode`; `none` where it throws. -/
def urlDecode : JString → Option JString := unescape plusToSpace idle

example : urlDecode (java "a+b%41%C3%A9%F0%9F%98%80%E9") =
    some (java "a bA" ++ [0xe9#16, 0xd83d#16, 0xde00#16, replacement]) := by decide +kernel

section bytes
variable {c high low : JChar}

lemma isHighSurrogate_iff (c : JChar) :
    isHighSurrogate c = true ↔ 0xd800 ≤ c.toNat ∧ c.toNat ≤ 0xdbff := by
  rw [isHighSurrogate, decide_eq_true_eq, BitVec.le_def, BitVec.le_def]
  rfl

lemma isLowSurrogate_iff (c : JChar) :
    isLowSurrogate c = true ↔ 0xdc00 ≤ c.toNat ∧ c.toNat ≤ 0xdfff := by
  rw [isLowSurrogate, decide_eq_true_eq, BitVec.le_def, BitVec.le_def]
  rfl

/-- The low bits under the marker of a byte. -/
lemma or_toNat {marker x : Byte} {i a : ℕ} (hmarker : marker.toNat = 2 ^ i * a)
    (hx : x.toNat < 2 ^ i) : (marker ||| x).toNat = 2 ^ i * a + x.toNat := by
  rw [BitVec.toNat_or, hmarker, Nat.two_pow_add_eq_or_of_lt hx]

lemma shifted_toNat {p : BitVec 32} {k : ℕ} (h : p.toNat / 2 ^ k < 256) :
    ((p >>> k).setWidth 8).toNat = p.toNat / 2 ^ k := by
  rw [BitVec.toNat_setWidth, BitVec.toNat_ushiftRight, Nat.shiftRight_eq_div_pow, Nat.mod_eq_of_lt h]

lemma continuation_toNat (p : BitVec 32) (k : ℕ) :
    (continuation p k).toNat = 128 + p.toNat / 2 ^ k % 64 := by
  have hlow : (((p >>> k) &&& 0x3f#32).setWidth 8).toNat = p.toNat / 2 ^ k % 64 := by
    have hmask : (0x3f#32).toNat = 2 ^ 6 - 1 := rfl
    rw [BitVec.toNat_setWidth, BitVec.toNat_and, hmask, Nat.and_two_pow_sub_one_eq_mod,
      BitVec.toNat_ushiftRight, Nat.shiftRight_eq_div_pow]
    omega
  have hlt := Nat.mod_lt (p.toNat / 2 ^ k) (y := 64) (by decide)
  have hmarker : (0x80#8).toNat = 2 ^ 6 * 2 := rfl
  have hor := or_toNat hmarker (hlow.trans_lt hlt)
  rw [hlow] at hor
  exact hor

lemma step_lead (b : Byte) : idle.step b = start b := rfl

/-- A continuation byte within its bounds, before the last one and as the last one. -/
lemma step_more {b : Byte} {k v n lower upper : ℕ} (hv : v = n / 64) (hb : b.toNat = 128 + n % 64)
    (hlower : lower ≤ b.toNat) (hupper : b.toNat ≤ upper) :
    Utf8State.step ⟨k + 2, v, lower, upper⟩ b = ([], ⟨k + 1, n, 0x80, 0xbf⟩) := by
  have hpoint : 64 * v + b.toNat % 64 = n := by omega
  rw [Utf8State.step, if_neg (Nat.succ_ne_zero _), if_pos ⟨hlower, hupper⟩]
  simp only [hpoint]
  exact if_neg (by simp)

lemma step_last {b : Byte} {v n : ℕ} (hv : v = n / 64) (hb : b.toNat = 128 + n % 64) :
    Utf8State.step ⟨1, v, 0x80, 0xbf⟩ b = (units n, idle) := by
  have hbounds : 0x80 ≤ b.toNat ∧ b.toNat ≤ 0xbf := by omega
  have hpoint : 64 * v + b.toNat % 64 = n := by omega
  rw [Utf8State.step, if_neg one_ne_zero, if_pos hbounds]
  simp only [hpoint]
  exact if_pos trivial

lemma run_two {a b : Byte} {n : ℕ} (hmin : 0x80 ≤ n) (hmax : n < 0x800)
    (ha : a.toNat = 192 + n / 64) (hb : b.toNat = 128 + n % 64) :
    idle.run [a, b] = (units n, idle) := by
  have hstart : start a = ([], ⟨1, n / 64, 0x80, 0xbf⟩) := by
    simp only [start]
    rw [if_neg (by omega), if_pos (by omega), ha, Nat.add_sub_cancel_left]
  simp only [Utf8State.run, step_lead, hstart, step_last rfl hb, List.nil_append, List.append_nil]

lemma run_three {a b d : Byte} {n : ℕ} (hmin : 0x800 ≤ n) (hmax : n < 0x10000)
    (ha : a.toNat = 224 + n / 4096) (hb : b.toNat = 128 + n / 64 % 64)
    (hd : d.toNat = 128 + n % 64) : idle.run [a, b, d] = (units n, idle) := by
  have hstart : start a =
      ([], ⟨2, n / 4096, if a.toNat = 0xe0 then 0xa0 else 0x80, 0xbf⟩) := by
    simp only [start]
    rw [if_neg (by omega), if_neg (by omega), if_pos (by omega), ha, Nat.add_sub_cancel_left]
  have hlower : (if a.toNat = 0xe0 then 0xa0 else 0x80) ≤ b.toNat := by split_ifs <;> omega
  have hsecond : Utf8State.step ⟨2, n / 4096, if a.toNat = 0xe0 then 0xa0 else 0x80, 0xbf⟩ b =
      ([], ⟨1, n / 64, 0x80, 0xbf⟩) := step_more (by omega) hb hlower (by omega)
  simp only [Utf8State.run, step_lead, hstart, hsecond, step_last rfl hd, List.nil_append,
    List.append_nil]

lemma run_four {a b d e : Byte} {n : ℕ} (hmin : 0x10000 ≤ n) (hmax : n < 0x110000)
    (ha : a.toNat = 240 + n / 262144) (hb : b.toNat = 128 + n / 4096 % 64)
    (hd : d.toNat = 128 + n / 64 % 64) (he : e.toNat = 128 + n % 64) :
    idle.run [a, b, d, e] = (units n, idle) := by
  have hstart : start a = ([], ⟨3, n / 262144, if a.toNat = 0xf0 then 0x90 else 0x80,
      if a.toNat = 0xf4 then 0x8f else 0xbf⟩) := by
    simp only [start]
    rw [if_neg (by omega), if_neg (by omega), if_neg (by omega), if_pos (by omega), ha,
      Nat.add_sub_cancel_left]
  have hlower : (if a.toNat = 0xf0 then 0x90 else 0x80) ≤ b.toNat := by split_ifs <;> omega
  have hupper : b.toNat ≤ (if a.toNat = 0xf4 then 0x8f else 0xbf) := by split_ifs <;> omega
  have hsecond : Utf8State.step ⟨3, n / 262144, if a.toNat = 0xf0 then 0x90 else 0x80,
      if a.toNat = 0xf4 then 0x8f else 0xbf⟩ b = ([], ⟨2, n / 4096, 0x80, 0xbf⟩) :=
    step_more (by omega) hb hlower hupper
  have hthird : Utf8State.step ⟨2, n / 4096, 0x80, 0xbf⟩ d = ([], ⟨1, n / 64, 0x80, 0xbf⟩) :=
    step_more (by omega) hd (by omega) (by omega)
  simp only [Utf8State.run, step_lead, hstart, hsecond, hthird, step_last rfl he, List.nil_append,
    List.append_nil]

lemma units_unit (hhigh : ¬ isHighSurrogate c = true) (hlow : ¬ isLowSurrogate c = true) :
    units c.toNat = [c] := by
  have hsurrogate : ¬ (0xd800 ≤ c.toNat ∧ c.toNat < 0xe000) := by
    rw [isHighSurrogate_iff] at hhigh
    rw [isLowSurrogate_iff] at hlow
    omega
  rw [units, if_pos c.isLt, if_neg hsurrogate, BitVec.ofNat_toNat, BitVec.setWidth_eq]

lemma run_ascii (h : c.toNat < 0x80) : idle.run [c.setWidth 8] = ([c], idle) := by
  have hbyte : (c.setWidth 8).toNat = c.toNat := by
    rw [BitVec.toNat_setWidth, Nat.mod_eq_of_lt (by omega)]
  have hback : (c.setWidth 8).setWidth 16 = c := by
    refine BitVec.eq_of_toNat_eq ?_
    rw [BitVec.toNat_setWidth, hbyte, Nat.mod_eq_of_lt c.isLt]
  have hstart : start (c.setWidth 8) = ([c], idle) := by
    simp only [start]
    rw [hbyte, if_pos h, hback]
  simp only [Utf8State.run, step_lead, hstart, List.append_nil]

/-- The bytes of one unit are read back. -/
theorem run_encodeUnit (hhigh : ¬ isHighSurrogate c = true) (hlow : ¬ isLowSurrogate c = true) :
    idle.run (encodeUnit c) = ([c], idle) := by
  have hlt : c.toNat < 65536 := c.isLt
  have hpoint : (c.setWidth 32).toNat = c.toNat := by
    rw [BitVec.toNat_setWidth, Nat.mod_eq_of_lt (by omega)]
  simp only [encodeUnit, BitVec.lt_def, BitVec.toNat_ofNat]
  split_ifs with hone htwo hsur
  · exact run_ascii hone
  · have hshift : ((c.setWidth 32 >>> 6).setWidth 8).toNat = c.toNat / 2 ^ 6 := by
      rw [shifted_toNat (by omega), hpoint]
    rw [← units_unit hhigh hlow]
    refine run_two (by omega) (by omega) ?_ ?_
    · rw [or_toNat (i := 6) (a := 3) rfl (by omega), hshift]
      rfl
    · rw [continuation_toNat, hpoint]
      omega
  · exact absurd hsur (not_or.mpr ⟨hhigh, hlow⟩)
  · have hshift : ((c.setWidth 32 >>> 12).setWidth 8).toNat = c.toNat / 2 ^ 12 := by
      rw [shifted_toNat (by omega), hpoint]
    rw [← units_unit hhigh hlow]
    refine run_three (by omega) hlt ?_ ?_ ?_
    · rw [or_toNat (i := 5) (a := 7) rfl (by omega), hshift]
      rfl
    · rw [continuation_toNat, hpoint]
      rfl
    · rw [continuation_toNat, hpoint]
      omega

lemma units_pair {n : ℕ} (hhigh : isHighSurrogate high = true) (hlow : isLowSurrogate low = true)
    (hn : n = 65536 + (high.toNat - 55296) * 1024 + (low.toNat - 56320)) : units n = [high, low] := by
  rw [isHighSurrogate_iff] at hhigh
  rw [isLowSurrogate_iff] at hlow
  have hfirst : 0xd800 + (n - 0x10000) / 1024 = high.toNat := by omega
  have hsecond : 0xdc00 + (n - 0x10000) % 1024 = low.toNat := by omega
  rw [units, if_neg (by omega), hfirst, hsecond]
  simp

/-- The bytes of a surrogate pair are read back. -/
theorem run_encodePair (hhigh : isHighSurrogate high = true) (hlow : isLowSurrogate low = true) :
    idle.run (encodePair high low) = ([high, low], idle) := by
  obtain ⟨n, hn⟩ : ∃ n, n = 65536 + (high.toNat - 55296) * 1024 + (low.toNat - 56320) := ⟨_, rfl⟩
  rw [← units_pair hhigh hlow hn]
  rw [isHighSurrogate_iff] at hhigh
  rw [isLowSurrogate_iff] at hlow
  have hpoint : (0x10000#32 + ((high.setWidth 32 - 0xd800#32) <<< 10) +
      (low.setWidth 32 - 0xdc00#32)).toNat = n := by
    simp only [BitVec.toNat_add, BitVec.toNat_sub, BitVec.toNat_shiftLeft, BitVec.toNat_setWidth,
      BitVec.toNat_ofNat, Nat.shiftLeft_eq]
    omega
  simp only [encodePair]
  generalize 0x10000#32 + ((high.setWidth 32 - 0xd800#32) <<< 10) +
    (low.setWidth 32 - 0xdc00#32) = p at hpoint
  have hshift : ((p >>> 18).setWidth 8).toNat = n / 2 ^ 18 := by
    rw [shifted_toNat (by omega), hpoint]
  refine run_four (by omega) (by omega) ?_ ?_ ?_ ?_
  · rw [or_toNat (i := 4) (a := 15) rfl (by omega), hshift]
    rfl
  · rw [continuation_toNat, hpoint]
    rfl
  · rw [continuation_toNat, hpoint]
    rfl
  · rw [continuation_toNat, hpoint]
    omega

end bytes

section escapes
variable {other : JChar → JChar} {s : Utf8State} {c d x y : JChar} {t u q e : JString} {b : Byte}

lemma unescape_percent (other : JChar → JChar) (s : Utf8State) (x y : JChar) (rest : JString) :
    unescape other s (percent :: x :: y :: rest) =
      (hexByte x y).bind fun b => (unescape other (s.step b).2 rest).map ((s.step b).1 ++ ·) :=
  if_pos rfl

lemma unescape_cons (other : JChar → JChar) (s : Utf8State) (hc : c ≠ percent) (cs : JString) :
    unescape other s (c :: cs) = (unescape other idle cs).map (s.flush ++ other c :: ·) := by
  rw [unescape.eq_def]
  exact if_neg hc

lemma encode_unreserved (hc : isUnreserved c = true) (cs : JString) :
    encodeURIComponent (c :: cs) = (encodeURIComponent cs).map (c :: ·) := by
  rw [encodeURIComponent.eq_def]
  exact if_pos hc

lemma encode_pair (hc : ¬ isUnreserved c = true) (hhigh : isHighSurrogate c = true)
    (hlow : isLowSurrogate d = true) (ds : JString) : encodeURIComponent (c :: d :: ds) =
      (encodeURIComponent ds).map (escape (encodePair c d) ++ ·) := by
  rw [encodeURIComponent.eq_def]
  exact (if_neg hc).trans ((if_pos hhigh).trans (if_pos hlow))

lemma encode_unit (hc : ¬ isUnreserved c = true) (hhigh : ¬ isHighSurrogate c = true)
    (hlow : ¬ isLowSurrogate c = true) (cs : JString) : encodeURIComponent (c :: cs) =
      (encodeURIComponent cs).map (escape (encodeUnit c) ++ ·) := by
  rw [encodeURIComponent.eq_def]
  exact (if_neg hc).trans ((if_neg hhigh).trans (if_neg hlow))

lemma hexValue_hexDigit {n : ℕ} (h : n < 16) : hexValue (hexDigit n) = some n := by
  have hall : ∀ k : Fin 16, hexValue (hexDigit k) = some (k : ℕ) := by decide
  exact hall ⟨n, h⟩

lemma hexByte_escape (b : Byte) :
    hexByte (hexDigit (b.toNat / 16)) (hexDigit (b.toNat % 16)) = some b := by
  have hlt : b.toNat < 256 := b.isLt
  rw [hexByte, hexValue_hexDigit (by omega), hexValue_hexDigit (by omega), Option.bind_some,
    Option.map_some, Nat.div_add_mod, BitVec.ofNat_toNat, BitVec.setWidth_eq]

/-- Escaped bytes go through the decoder. -/
lemma unescape_escape (other : JChar → JChar) (s : Utf8State) (bs : Bytes) (rest : JString) :
    unescape other s (escape bs ++ rest) =
      (unescape other (s.run bs).2 rest).map ((s.run bs).1 ++ ·) := by
  induction bs generalizing s with
  | nil => simp [escape, Utf8State.run]
  | cons b bs ih =>
    have hcons : escape (b :: bs) ++ rest = percent :: hexDigit (b.toNat / 16) ::
        hexDigit (b.toNat % 16) :: (escape bs ++ rest) := rfl
    rw [hcons, unescape_percent, hexByte_escape, Option.bind_some, ih, Option.map_map]
    simp only [Utf8State.run, Function.comp_def, List.append_assoc]

lemma isUnreserved_ne_percent (h : isUnreserved c = true) : c ≠ percent := by
  rintro rfl
  exact absurd h (by decide)

/-- Decoding undoes the encoding where the unreserved characters stand for themselves. -/
theorem unescape_encode (hother : ∀ c, isUnreserved c = true → other c = c)
    (h : encodeURIComponent q = some e) : unescape other idle e = some q := by
  induction q using encodeURIComponent.induct generalizing e with
  | case1 =>
    rw [← Option.some.inj h]
    rfl
  | case2 c cs hc ih =>
    rw [encode_unreserved hc] at h
    obtain ⟨e, he, rfl⟩ := Option.map_eq_some_iff.mp h
    rw [unescape_cons other idle (isUnreserved_ne_percent hc), ih he, hother c hc]
    rfl
  | case3 c hc hhigh d ds hlow ih =>
    rw [encode_pair hc hhigh hlow] at h
    obtain ⟨e, he, rfl⟩ := Option.map_eq_some_iff.mp h
    rw [unescape_escape, run_encodePair hhigh hlow, ih he]
    rfl
  -- a surrogate on its own is not encoded
  | case4 c hc hhigh d ds hlow => simp [encodeURIComponent.eq_def, hc, hhigh, hlow] at h
  | case5 c hc hhigh => simp [encodeURIComponent.eq_def, hc, hhigh] at h
  | case6 c cs hc hhigh hlow => simp [encodeURIComponent.eq_def, hc, hhigh, hlow] at h
  | case7 c cs hc hhigh hlow ih =>
    rw [encode_unit hc hhigh hlow] at h
    obtain ⟨e, he, rfl⟩ := Option.map_eq_some_iff.mp h
    rw [unescape_escape, run_encodeUnit hhigh hlow, ih he]
    rfl

/-- Text without an escape stands for its characters. -/
lemma unescape_append (other : JChar → JChar) (h : percent ∉ t) (rest : JString) :
    unescape other idle (t ++ rest) = (unescape other idle rest).map (t.map other ++ ·) := by
  induction t with
  | nil => simp
  | cons c cs ih =>
    obtain ⟨hc, hcs⟩ := not_or.mp (mt List.mem_cons.mpr h)
    rw [List.cons_append, unescape_cons other idle (Ne.symm hc), ih hcs, Option.map_map]
    rfl

lemma unescape_plain (other : JChar → JChar) (h : percent ∉ t) :
    unescape other idle t = some (t.map other) := by
  have happend := unescape_append other h []
  have hnil : unescape other idle [] = some [] := rfl
  rwa [List.append_nil, hnil, Option.map_some, List.append_nil] at happend

/-- One unit is owed for an unfinished character. -/
def Utf8State.held (s : Utf8State) : ℕ := s.flush.length

lemma start_length (b : Byte) : (start b).1.length + (start b).2.held = 1 := by
  simp only [start]
  split_ifs <;> rfl

lemma units_length (point : ℕ) : (units point).length ≤ 2 := by
  rw [units]
  split_ifs <;> simp

lemma step_length (s : Utf8State) (b : Byte) :
    (s.step b).1.length + (s.step b).2.held ≤ s.held + 1 := by
  have hstart := start_length b
  by_cases hneeded : s.needed = 0
  · rw [Utf8State.step, if_pos hneeded]
    omega
  · have hheld : s.held = 1 := by rw [Utf8State.held, Utf8State.flush, if_neg hneeded]; rfl
    rw [Utf8State.step, if_neg hneeded]
    split_ifs with hbounds hlast
    · have hunits := units_length (64 * s.point + b.toNat % 64)
      have hidle : idle.held = 0 := rfl
      simp only
      omega
    · have hmore : s.needed - 1 ≠ 0 := by omega
      simp only [Utf8State.held, Utf8State.flush, if_neg hmore, if_neg hneeded, List.length_nil]
      simp
    · simp only [List.length_cons]
      omega

lemma hexValue_percent : hexValue percent = none := by decide

/-- The two digits of an escape are no percent signs. -/
lemma hexByte_digits (h : hexByte x y = some b) : x ≠ percent ∧ y ≠ percent := by
  obtain ⟨high, hhigh, hlow⟩ := Option.bind_eq_some_iff.mp h
  obtain ⟨low, hlow, -⟩ := Option.map_eq_some_iff.mp hlow
  constructor
  · rintro rfl
    exact absurd (hexValue_percent.symm.trans hhigh).symm (Option.some_ne_none high)
  · rintro rfl
    exact absurd (hexValue_percent.symm.trans hlow).symm (Option.some_ne_none low)

/-- Each escape makes the text at least two characters shorter. -/
theorem unescape_length (h : unescape other s t = some u) :
    u.length + 2 * t.count percent ≤ s.held + t.length := by
  induction s, t using unescape.induct generalizing u with
  | case1 s =>
    rw [← Option.some.inj h]
    exact le_rfl
  | case2 s x y rest ih =>
    rw [unescape_percent] at h
    obtain ⟨b, hb, hrest⟩ := Option.bind_eq_some_iff.mp h
    obtain ⟨v, hv, rfl⟩ := Option.map_eq_some_iff.mp hrest
    obtain ⟨hx, hy⟩ := hexByte_digits hb
    have hstep := step_length s b
    have hv := ih b hv
    rw [List.count_cons_self, List.count_cons_of_ne hx, List.count_cons_of_ne hy]
    simp only [List.length_append, List.length_cons]
    omega
  | case3 s cs hcs =>
    rw [unescape.eq_def] at h
    simp at h
  | case4 s c cs hc ih =>
    rw [unescape_cons other s hc] at h
    obtain ⟨v, hv, rfl⟩ := Option.map_eq_some_iff.mp h
    have hv := ih hv
    have hidle : idle.held = 0 := rfl
    rw [List.count_cons_of_ne hc, List.length_append, Utf8State.held]
    simp only [List.length_cons]
    omega

/-- Form decoding leaves a text as it is exactly when it has nothing to decode. -/
theorem urlDecode_eq_self_iff (t : JString) : urlDecode t = some t ↔ percent ∉ t ∧ plus ∉ t := by
  by_cases hpercent : percent ∈ t
  · refine iff_of_false (fun h => ?_) fun h => h.1 hpercent
    have hlength := unescape_length h
    have hcount := List.count_pos_iff.mpr hpercent
    have hidle : idle.held = 0 := rfl
    omega
  · have hself : t.map plusToSpace = t ↔ ∀ c ∈ t, plusToSpace c = c := by
      simpa using List.map_inj_left (l := t) (f := plusToSpace) (g := id)
    rw [urlDecode, unescape_plain _ hpercent, Option.some.injEq, and_iff_right hpercent, hself]
    constructor
    · exact fun h hplus => absurd (h plus hplus) (by decide)
    · exact fun h c hc => if_neg fun heq : c = plus => h (heq ▸ hc)

/-- A decoded text is not longer than the encoded one. -/
lemma urlDecode_length (h : urlDecode t = some u) : u.length ≤ t.length := by
  have hlength := unescape_length h
  have hidle : idle.held = 0 := rfl
  omega

/-- `URI.getQuery` gives back an encoded text after other text. -/
theorem uriDecode_encode (ht : percent ∉ t) (h : encodeURIComponent q = some e) :
    uriDecode (t ++ e) = some (t ++ q) := by
  have hdecoded : unescape id idle e = some q := unescape_encode (fun _ _ => rfl) h
  rw [uriDecode, unescape_append id ht, hdecoded, List.map_id]
  rfl

end escapes

end Eureka.UrlText
