import Mathlib.Data.List.GetD
import NetworkPrograms.Foundations.Words
import NetworkPrograms.Foundations.Numerals

/-!
# Addresses from texts

`inet_pton4` and `inet_pton6` of `libfree/inet_pton.c`. Both work on an array of their own
and copy it to the caller's only when they return 1, so that a result is the address or
nothing. The part of the array behind the pointer `tp` is zero in `inet_pton6`, and is not
looked at in `inet_pton4`.
-/
namespace NetworkPrograms.Inet

open Numerals

/-- The position of a character in a string, `strchr(s, ch) - s`. -/
def strchr (s : String) (ch : Char) : Option ℕ := s.toList.idxOf? ch

/-! ## `inet_pton4` -/

def digit (ch : Char) : Option ℕ := strchr "0123456789" ch

/-- The variables of `inet_pton4`: the octets before `tp`, and the one it points at. -/
structure Pton4 where
  saw_digit : Bool := false
  octets : ℕ := 0
  done : List ℕ := []
  cur : ℕ := 0

namespace Pton4

def step (s : Pton4) (ch : Char) : Option Pton4 :=
  match digit ch with
  | some d =>
    let new := s.cur * 10 + d
    if new > 255 then none
    else if s.saw_digit = false then
      if s.octets + 1 > 4 then none
      else some { s with cur := new, octets := s.octets + 1, saw_digit := true }
    else some { s with cur := new }
  | none =>
    if ch = '.' ∧ s.saw_digit = true then
      if s.octets = 4 then none
      else some { s with done := s.done ++ [s.cur], cur := 0, saw_digit := false }
    else none

end Pton4

def inetPton4 (src : List Char) : Option Bytes := do
  let s ← src.foldlM Pton4.step {}
  if s.octets < 4 then none else some ((s.done ++ [s.cur]).map UInt8.ofNat)

/-- The value of a decimal numeral. -/
def decimal (g : List Char) : ℕ := value digit 10 0 g

/-- A decimal numeral up to 255. Leading zeros are allowed. -/
structure IsOctet (g : List Char) : Prop where
  ne_nil : g ≠ []
  digits : AllDigits digit g
  le : decimal g ≤ 255

/-- The octets `gs` and the start `g` of another one have been read. -/
structure Pton4.Read (gs : List (List Char)) (g : List Char) (s : Pton4) : Prop where
  octets_done : ∀ x ∈ gs, IsOctet x
  digits : AllDigits digit g
  done : s.done = gs.map decimal
  cur : s.cur = decimal g
  le : decimal g ≤ 255
  saw_digit : s.saw_digit = true ↔ g ≠ []
  octets : s.octets = gs.length + if g = [] then 0 else 1
  few : gs.length ≤ 3

namespace Pton4

variable {gs : List (List Char)} {g : List Char} {s t : Pton4} {ch : Char}

theorem read_init : Read [] [] {} where
  octets_done := by simp
  digits := by simp [AllDigits]
  done := rfl
  cur := rfl
  le := Nat.zero_le _
  saw_digit := by simp
  octets := rfl
  few := Nat.zero_le _

theorem decimal_concat (g : List Char) {d : ℕ} (hd : digit ch = some d) :
    decimal (g ++ [ch]) = decimal g * 10 + d := by
  rw [decimal, value_append, value_cons hd, value_nil]
  rfl

theorem Read.step (h : Read gs g s) (ht : s.step ch = some t) :
    ∃ gs' g', Read gs' g' t ∧
      terminated '.' gs' ++ g' = terminated '.' gs ++ g ++ [ch] := by
  unfold Pton4.step at ht
  have hoctets := h.octets
  cases hd : digit ch with
  | some d =>
    have hvalue := decimal_concat g hd
    rw [← h.cur] at hvalue
    have hdigits : AllDigits digit (g ++ [ch]) :=
      h.digits.append (AllDigits.cons (by simp [AllDigits]) hd)
    simp only [hd] at ht
    split_ifs at ht with hbig hfirst hmany
    all_goals
      cases ht
      refine ⟨gs, g ++ [ch], ⟨h.octets_done, hdigits, h.done, hvalue.symm, by omega, ?_, ?_, h.few⟩,
        by simp⟩
    · simp
    · have hnil : g = [] := by
        by_contra hne
        rw [h.saw_digit.mpr hne] at hfirst
        cases hfirst
      simpa [hnil] using hoctets
    · simpa using hfirst
    · have hne : g ≠ [] := h.saw_digit.mp (by simpa using hfirst)
      simpa [hne] using hoctets
  | none =>
    simp only [hd] at ht
    split_ifs at ht with hdot hmany
    cases ht
    have hne := h.saw_digit.mp hdot.2
    rw [if_neg hne] at hoctets
    refine ⟨gs ++ [g], [], ⟨?_, by simp [AllDigits], ?_, rfl, Nat.zero_le _, by simp, ?_, ?_⟩, ?_⟩
    · intro x hx
      rcases List.mem_append.mp hx with hx | hx
      · exact h.octets_done x hx
      · rw [List.mem_singleton.mp hx]
        exact ⟨hne, h.digits, h.le⟩
    · simp [h.done, h.cur]
    · simpa using hoctets
    · have hfew := h.few
      simp only [List.length_append, List.length_singleton]
      omega
    · simp [terminated_append, hdot.1]

theorem Read.foldlM (h : Read gs g s) {text : List Char} (ht : text.foldlM Pton4.step s = some t) :
    ∃ gs' g', Read gs' g' t ∧ terminated '.' gs' ++ g' = terminated '.' gs ++ g ++ text := by
  induction text generalizing gs g s with
  | nil =>
    cases ht
    exact ⟨gs, g, h, by simp⟩
  | cons ch text ih =>
    rw [List.foldlM_cons] at ht
    obtain ⟨u, hu, ht⟩ := Option.bind_eq_some_iff.mp ht
    obtain ⟨gs₁, g₁, h₁, htext₁⟩ := h.step hu
    obtain ⟨gs₂, g₂, h₂, htext₂⟩ := ih h₁ ht
    exact ⟨gs₂, g₂, h₂, by simp [htext₂, htext₁]⟩

/-! ### Texts that are read to the end -/

theorem foldlM_digits (hg : AllDigits digit g) (hsaw : s.saw_digit = true)
    (hle : value digit 10 s.cur g ≤ 255) :
    g.foldlM step s = some { s with cur := value digit 10 s.cur g } := by
  induction g generalizing s with
  | nil => rfl
  | cons ch g ih =>
    obtain ⟨d, hd, hg'⟩ := hg.exists_head
    rw [value_cons hd] at hle
    have hsmall : ¬ s.cur * 10 + d > 255 :=
      not_lt.mpr ((le_value (by decide) _ _).trans hle)
    have hstep : s.step ch = some { s with cur := s.cur * 10 + d } := by
      simp [step, hd, hsmall, hsaw]
    rw [List.foldlM_cons, hstep, value_cons hd]
    exact ih hg' hsaw hle

theorem foldlM_octet (hg : IsOctet g) (hsaw : s.saw_digit = false) (hcur : s.cur = 0)
    (hoctets : s.octets < 4) :
    g.foldlM step s =
      some { s with saw_digit := true, octets := s.octets + 1, cur := decimal g } := by
  obtain ⟨hne, hdigits, hle⟩ := hg
  obtain ⟨ch, g, rfl⟩ := List.exists_cons_of_ne_nil hne
  obtain ⟨d, hd, hg'⟩ := hdigits.exists_head
  rw [decimal, value_cons hd, zero_mul, zero_add] at hle ⊢
  have hsmall : ¬ d > 255 := not_lt.mpr ((le_value (by decide) _ _).trans hle)
  have hmany : ¬ s.octets + 1 > 4 := by omega
  have hstep : s.step ch = some { s with saw_digit := true, octets := s.octets + 1, cur := d } := by
    simp [step, hd, hcur, hsmall, hsaw, hmany]
  rw [List.foldlM_cons, hstep]
  exact foldlM_digits hg' rfl hle

theorem foldlM_dotted (hg : IsOctet g) (hsaw : s.saw_digit = false) (hcur : s.cur = 0)
    (hoctets : s.octets < 3) (text : List Char) :
    (g ++ '.' :: text).foldlM step s =
      text.foldlM step { s with octets := s.octets + 1, done := s.done ++ [decimal g] } := by
  have hdot : digit '.' = none := by decide
  have hmany : ¬ s.octets + 1 = 4 := by omega
  rw [List.foldlM_append, foldlM_octet hg hsaw hcur (by omega)]
  simp [step, hdot, hmany, hsaw, hcur]

end Pton4

theorem inetPton4_of_octets {gs : List (List Char)} (hlen : gs.length = 4)
    (hoctets : ∀ g ∈ gs, IsOctet g) :
    inetPton4 (['.'].intercalate gs) = some (gs.map fun g => UInt8.ofNat (decimal g)) := by
  obtain ⟨a, b, c, d, rfl⟩ : ∃ a b c d, gs = [a, b, c, d] := by
    match gs, hlen with
    | [a, b, c, d], _ => exact ⟨a, b, c, d, rfl⟩
  simp only [List.mem_cons, List.not_mem_nil, or_false, forall_eq_or_imp, forall_eq] at hoctets
  obtain ⟨ha, hb, hc, hd⟩ := hoctets
  have htext : ['.'].intercalate [a, b, c, d] = a ++ '.' :: (b ++ '.' :: (c ++ '.' :: d)) := by
    simp [List.intercalate]
  rw [inetPton4, htext, Pton4.foldlM_dotted ha rfl rfl (show 0 < 3 by decide),
    Pton4.foldlM_dotted hb rfl rfl (show 1 < 3 by decide),
    Pton4.foldlM_dotted hc rfl rfl (show 2 < 3 by decide),
    Pton4.foldlM_octet hd rfl rfl (show 3 < 4 by decide)]
  rfl

/-- `inet_pton4` accepts exactly the texts that are four decimal numerals up to 255 with dots
between them, and returns their values. -/
theorem inet_pton4_iff (src : List Char) (addr : Bytes) :
    inetPton4 src = some addr ↔ ∃ gs : List (List Char), gs.length = 4 ∧ (∀ g ∈ gs, IsOctet g) ∧
      src = ['.'].intercalate gs ∧ addr = gs.map fun g => UInt8.ofNat (decimal g) := by
  constructor
  · intro h
    obtain ⟨s, hs, haddr⟩ := Option.bind_eq_some_iff.mp h
    obtain ⟨gs, g, hread, htext⟩ := Pton4.read_init.foldlM hs
    have hoctets := hread.octets
    have hfew := hread.few
    split_ifs at haddr with hshort
    have hne : g ≠ [] := by
      intro hnil
      rw [if_pos hnil] at hoctets
      omega
    rw [if_neg hne] at hoctets
    refine ⟨gs ++ [g], by simp; omega, ?_, ?_, ?_⟩
    · intro x hx
      rcases List.mem_append.mp hx with hx | hx
      · exact hread.octets_done x hx
      · rw [List.mem_singleton.mp hx]
        exact ⟨hne, hread.digits, hread.le⟩
    · rw [intercalate_concat, htext]
      rfl
    · rw [← Option.some.inj haddr, hread.done, hread.cur]
      simp
  · rintro ⟨gs, hlen, hoctets, rfl, rfl⟩
    exact inetPton4_of_octets hlen hoctets

/-! ## `inet_pton6` -/

def IN6ADDRSZ : ℕ := 16

def INADDRSZ : ℕ := 4

def INT16SZ : ℕ := 2

/-- The search in `xdigits_l` and then in `xdigits_u`. -/
def xdigit (ch : Char) : Option ℕ :=
  match strchr "0123456789abcdef" ch with
  | some d => some d
  | none => strchr "0123456789ABCDEF" ch

/-- The variables of `inet_pton6`: the bytes before `tp`, `colonp` as an index, and the text
from `curtok` on. -/
structure Pton6 where
  tmp : Bytes := []
  colonp : Option ℕ := none
  curtok : List Char
  saw_xdigit : Bool := false
  val : ℕ := 0

namespace Pton6

def put (s : Pton6) : Pton6 :=
  { s with
    tmp := s.tmp ++ [UInt8.ofNat (s.val >>> 8), UInt8.ofNat s.val]
    saw_xdigit := false
    val := 0 }

/-- The loop, up to the end of the text or to the `break`. -/
def loop : List Char → Pton6 → Option Pton6
  | [], s => some s
  | ch :: src, s =>
    match xdigit ch with
    | some d =>
      let val := s.val <<< 4 ||| d
      if val > 0xffff then none
      else loop src { s with val := val, saw_xdigit := true }
    | none =>
      if ch = ':' then
        let s := { s with curtok := src }
        if s.saw_xdigit = false then
          match s.colonp with
          | some _ => none
          | none => loop src { s with colonp := some s.tmp.length }
        else if s.tmp.length + INT16SZ > IN6ADDRSZ then none
        else loop src s.put
      else if ch = '.' ∧ s.tmp.length + INADDRSZ ≤ IN6ADDRSZ then
        match inetPton4 s.curtok with
        | some octets => some { s with tmp := s.tmp ++ octets, saw_xdigit := false }
        | none => none
      else none

def flush (s : Pton6) : Option Pton6 :=
  if s.saw_xdigit = true then
    if s.tmp.length + INT16SZ > IN6ADDRSZ then none else some s.put
  else some s

/-- One step of the shift: `endp[- i] = colonp[n - i]; colonp[n - i] = 0`. -/
def shiftStep (colonp n : ℕ) (tmp : ℕ → UInt8) (i : ℕ) : ℕ → UInt8 :=
  Function.update (Function.update tmp (IN6ADDRSZ - i) (tmp (colonp + (n - i))))
    (colonp + (n - i)) 0

/-- The bytes behind `colonp` are moved to the end of the array. -/
def shift (colonp : ℕ) (tmp : Bytes) : Bytes :=
  let n := tmp.length - colonp
  (List.range IN6ADDRSZ).map
    ((List.range' 1 n).foldl (shiftStep colonp n) fun i => tmp.getD i 0)

def address (s : Pton6) : Option Bytes :=
  match s.colonp with
  | some colonp => some (shift colonp s.tmp)
  | none => if s.tmp.length = IN6ADDRSZ then some s.tmp else none

end Pton6

/-- Leading colons: there must be two, and the first is skipped. -/
def leading : List Char → Option (List Char)
  | ':' :: ':' :: rest => some (':' :: rest)
  | ':' :: _ => none
  | src => some src

def inetPton6 (src : List Char) : Option Bytes := do
  let src ← leading src
  let s ← Pton6.loop src { curtok := src }
  let s ← s.flush
  s.address

/-! ### The shift -/

/-- The array after `k` steps: the last `k` cells have been written, the `k` cells before the
end of the text are zero. The cells are the same ones if the text fills the array. -/
theorem shift_steps (tmp : ℕ → UInt8) {colonp n : ℕ} (hlen : colonp + n ≤ IN6ADDRSZ) {k : ℕ}
    (hk : k ≤ n) (hzero : ∀ j, colonp + n ≤ j → tmp j = 0) (j : ℕ) (hj : j < IN6ADDRSZ) :
    (List.range' 1 k).foldl (Pton6.shiftStep colonp n) tmp j =
      if colonp + n < IN6ADDRSZ ∧ IN6ADDRSZ - k ≤ j then tmp (j + (colonp + n) - IN6ADDRSZ)
      else if colonp + n - k ≤ j then 0 else tmp j := by
  induction k generalizing j with
  | zero =>
    have hnot : ¬ (colonp + n < IN6ADDRSZ ∧ IN6ADDRSZ - 0 ≤ j) := by omega
    rw [if_neg hnot]
    split_ifs with hend
    · exact hzero j (by omega)
    · rfl
  | succ k ih =>
    rw [List.range'_1_concat, List.foldl_append, List.foldl_cons, List.foldl_nil]
    have hsource := ih (by omega) (colonp + n - (k + 1)) (by omega)
    have hold := ih (by omega) j hj
    rw [if_neg (by omega), if_neg (by omega)] at hsource
    have hat : colonp + (n - (1 + k)) = colonp + n - (k + 1) := by omega
    rw [Pton6.shiftStep, hat, Function.update_apply, Function.update_apply]
    by_cases hread : j = colonp + n - (k + 1)
    · rw [if_pos hread, if_neg (by omega), if_pos (by omega)]
    · rw [if_neg hread]
      by_cases hwritten : j = IN6ADDRSZ - (1 + k)
      · rw [if_pos hwritten, hsource, if_pos (by omega)]
        congr 1
        omega
      · rw [if_neg hwritten, hold]
        have hlast : IN6ADDRSZ - (k + 1) ≤ j ↔ IN6ADDRSZ - k ≤ j := by omega
        have hback : colonp + n - (k + 1) ≤ j ↔ colonp + n - k ≤ j := by omega
        simp only [hlast, hback]

theorem shift_apply {colonp : ℕ} {tmp : Bytes} (hc : colonp ≤ tmp.length)
    (hlen : tmp.length ≤ IN6ADDRSZ) {j : ℕ} (hj : j < (Pton6.shift colonp tmp).length) :
    (Pton6.shift colonp tmp)[j] =
      if tmp.length < IN6ADDRSZ ∧ IN6ADDRSZ - (tmp.length - colonp) ≤ j then
        tmp.getD (j + tmp.length - IN6ADDRSZ) 0
      else if colonp ≤ j then 0 else tmp.getD j 0 := by
  have hj' : j < IN6ADDRSZ := by simpa [Pton6.shift] using hj
  have hsum : colonp + (tmp.length - colonp) = tmp.length := by omega
  have hzero : ∀ i, colonp + (tmp.length - colonp) ≤ i → tmp.getD i 0 = 0 := by
    intro i hi
    rw [hsum] at hi
    simp [hi]
  have hsteps := shift_steps (fun i => tmp.getD i 0) (by omega) le_rfl hzero j hj'
  rw [hsum] at hsteps
  simp only [Pton6.shift, List.getElem_map, List.getElem_range]
  rw [hsteps, show tmp.length - (tmp.length - colonp) = colonp by omega]

theorem shift_eq {front back : Bytes} (hlen : (front ++ back).length < IN6ADDRSZ) :
    Pton6.shift front.length (front ++ back) =
      front ++ (List.replicate (IN6ADDRSZ - (front ++ back).length) 0 ++ back) := by
  apply List.ext_getElem
  · simp only [Pton6.shift, List.length_map, List.length_range, List.length_append,
      List.length_replicate] at hlen ⊢
    omega
  · intro j hj hj'
    have hsum : (front ++ back).length = front.length + back.length := List.length_append
    rw [shift_apply (by simp) hlen.le hj]
    by_cases hfront : j < front.length
    · rw [if_neg (by omega), if_neg (by omega), List.getD_eq_getElem _ _ (by omega),
        List.getElem_append_left hfront, List.getElem_append_left hfront]
    · rw [List.getElem_append_right (not_lt.mp hfront)]
      by_cases hback : j < IN6ADDRSZ - back.length
      · rw [if_neg (by omega), if_pos (by omega),
          List.getElem_append_left (by rw [List.length_replicate]; omega), List.getElem_replicate]
      · have hlast : j < IN6ADDRSZ := by simpa [Pton6.shift] using hj
        rw [if_pos (by omega), List.getD_eq_getElem _ _ (by omega),
          List.getElem_append_right (by omega),
          List.getElem_append_right (by rw [List.length_replicate]; omega)]
        congr 1
        rw [List.length_replicate]
        omega

theorem shift_full {front back : Bytes} (hlen : (front ++ back).length = IN6ADDRSZ) :
    Pton6.shift front.length (front ++ back) = front ++ List.replicate back.length 0 := by
  apply List.ext_getElem
  · simpa [Pton6.shift] using hlen.symm
  · intro j hj hj'
    rw [shift_apply (by simp) hlen.le hj, if_neg (by omega)]
    by_cases hfront : j < front.length
    · rw [if_neg (by omega), List.getD_eq_getElem _ _ (by rw [List.length_append]; omega),
        List.getElem_append_left hfront, List.getElem_append_left hfront]
    · rw [if_pos (by omega), List.getElem_append_right (not_lt.mp hfront),
        List.getElem_replicate]

/-! ### Texts that are read to the end -/

def word (g : List Char) : ℕ := value xdigit 16 0 g

/-- A hexadecimal numeral of sixteen bits. Leading zeros are allowed, and letters of both
cases. -/
structure IsGroup (g : List Char) : Prop where
  ne_nil : g ≠ []
  digits : AllDigits xdigit g
  le : word g ≤ 0xffff

instance (g : List Char) : Decidable (IsGroup g) :=
  decidable_of_iff (g ≠ [] ∧ (g.all fun ch => (xdigit ch).isSome) = true ∧ word g ≤ 0xffff)
    ⟨fun ⟨hne, hdigits, hle⟩ => ⟨hne, List.all_eq_true.mp hdigits, hle⟩,
      fun h => ⟨h.ne_nil, List.all_eq_true.mpr h.digits, h.le⟩⟩

def hex (w : ℕ) : List Char := Nat.toDigits 16 w

def wordBytes (w : ℕ) : Bytes := [UInt8.ofNat (w >>> 8), UInt8.ofNat w]

def groupBytes (ws : List ℕ) : Bytes := ws.flatMap wordBytes

@[simp] theorem groupBytes_append (ws vs : List ℕ) :
    groupBytes (ws ++ vs) = groupBytes ws ++ groupBytes vs := List.flatMap_append

@[simp] theorem length_groupBytes (ws : List ℕ) : (groupBytes ws).length = 2 * ws.length := by
  induction ws with
  | nil => rfl
  | cons w ws ih =>
    rw [show groupBytes (w :: ws) = wordBytes w ++ groupBytes ws from rfl, List.length_append, ih,
      List.length_cons]
    simp only [wordBytes, List.length_cons, List.length_nil]
    omega

theorem groupBytes_replicate_zero (n : ℕ) :
    groupBytes (List.replicate n 0) = List.replicate (2 * n) 0 := by
  induction n with
  | zero => rfl
  | succ n ih =>
    rw [List.replicate_succ, show groupBytes (0 :: List.replicate n 0) =
      0 :: 0 :: groupBytes (List.replicate n 0) from rfl, ih]
    rfl

theorem xdigit_digitChar : ∀ d < 16, xdigit (Nat.digitChar d) = some d := by decide

theorem word_hex (w : ℕ) : word (hex w) = w := value_toDigits (by decide) xdigit_digitChar w

theorem map_word_hex (ws : List ℕ) : (ws.map hex).map word = ws := by
  rw [List.map_map, show word ∘ hex = id from funext word_hex, List.map_id]

theorem isGroup_of_mem_map_hex {ws : List ℕ} (hws : ∀ w ∈ ws, w < 2 ^ 16) :
    ∀ g ∈ ws.map hex, IsGroup g := by
  intro g hg
  obtain ⟨w, hw, rfl⟩ := List.mem_map.mp hg
  refine ⟨Nat.toDigits_ne_nil, allDigits_toDigits (by decide) xdigit_digitChar w, ?_⟩
  have := hws w hw
  rw [word_hex]
  omega

theorem strchr_lt {text : String} {ch : Char} {d : ℕ} (h : strchr text ch = some d) :
    d < text.toList.length := (List.idxOf?_eq_some_iff.mp h).1

theorem xdigit_lt {ch : Char} {d : ℕ} (h : xdigit ch = some d) : d < 16 := by
  unfold xdigit at h
  split at h
  · next hl =>
    cases h
    exact strchr_lt hl
  · exact strchr_lt h

namespace Pton6

variable {s : Pton6} {g : List Char} {w : ℕ}

theorem shift_or {d : ℕ} (val : ℕ) (hd : d < 16) : val <<< 4 ||| d = val * 16 + d := by
  rw [← Nat.shiftLeft_add_eq_or_of_lt (show d < 2 ^ 4 from hd), Nat.shiftLeft_eq]

theorem loop_digits (hg : AllDigits xdigit g) (hne : g ≠ [])
    (hle : value xdigit 16 s.val g ≤ 0xffff) (text : List Char) :
    loop (g ++ text) s =
      loop text { s with val := value xdigit 16 s.val g, saw_xdigit := true } := by
  induction g generalizing s with
  | nil => exact absurd rfl hne
  | cons ch g ih =>
    obtain ⟨d, hd, hg'⟩ := hg.exists_head
    rw [value_cons hd] at hle
    have hsmall : ¬ s.val * 16 + d > 0xffff := not_lt.mpr ((le_value (by decide) _ _).trans hle)
    rw [List.cons_append, loop, value_cons hd]
    simp only [hd, shift_or _ (xdigit_lt hd), if_neg hsmall]
    cases g with
    | nil => rfl
    | cons c g => exact ih hg' (List.cons_ne_nil c g) hle

section
variable {tmp : Bytes} {colonp : Option ℕ} {curtok : List Char}

theorem loop_word (hg : IsGroup g) (text : List Char) :
    loop (g ++ text) ⟨tmp, colonp, curtok, false, 0⟩ =
      loop text ⟨tmp, colonp, curtok, true, word g⟩ := by
  rw [loop_digits hg.digits hg.ne_nil (show value xdigit 16 0 g ≤ 0xffff from hg.le), word]

theorem loop_word_end (hg : IsGroup g) :
    loop g ⟨tmp, colonp, curtok, false, 0⟩ = some ⟨tmp, colonp, curtok, true, word g⟩ := by
  rw [← List.append_nil g, loop_word hg, loop, List.append_nil]

theorem loop_group (hg : IsGroup g) (hroom : tmp.length + INT16SZ ≤ IN6ADDRSZ)
    (text : List Char) :
    loop (g ++ ':' :: text) ⟨tmp, colonp, curtok, false, 0⟩ =
      loop text ⟨tmp ++ wordBytes (word g), colonp, text, false, 0⟩ := by
  have hcolon : xdigit ':' = none := by decide
  rw [loop_word hg, loop]
  simp only [hcolon, if_true, Bool.true_eq_false, if_false, not_lt.mpr hroom, put]
  rfl

theorem loop_groups (gs : List (List Char)) (hgs : ∀ g ∈ gs, IsGroup g)
    (hroom : tmp.length + 2 * gs.length ≤ IN6ADDRSZ) (text : List Char) :
    loop (terminated ':' gs ++ text) ⟨tmp, colonp, curtok, false, 0⟩ =
      loop text ⟨tmp ++ groupBytes (gs.map word), colonp, if gs = [] then curtok else text, false,
        0⟩ := by
  induction gs generalizing tmp curtok with
  | nil => simp [groupBytes]
  | cons g gs ih =>
    have hrest : (tmp ++ wordBytes (word g)).length + 2 * gs.length ≤ IN6ADDRSZ := by
      simp only [List.length_append, wordBytes, List.length_cons, List.length_nil] at hroom ⊢
      omega
    rw [List.length_cons] at hroom
    rw [terminated_cons, List.append_assoc, List.cons_append,
      loop_group (hgs g List.mem_cons_self) (by unfold INT16SZ; omega),
      ih (fun g' hg' => hgs g' (List.mem_cons_of_mem g hg')) hrest, if_neg (List.cons_ne_nil g gs),
      List.map_cons, show groupBytes (word g :: gs.map word) =
        wordBytes (word g) ++ groupBytes (gs.map word) from rfl, List.append_assoc]
    split_ifs with hnil
    · simp [hnil]
    · rfl

theorem loop_colon (text : List Char) :
    loop (':' :: text) ⟨tmp, none, curtok, false, 0⟩ =
      loop text ⟨tmp, some tmp.length, text, false, 0⟩ := by
  have hcolon : xdigit ':' = none := by decide
  rw [loop]
  simp only [hcolon, if_true]

theorem loop_address (gs : List (List Char)) (hgs : ∀ g ∈ gs, IsGroup g)
    (hroom : tmp.length + 2 * gs.length ≤ IN6ADDRSZ) :
    ((loop ([':'].intercalate gs) ⟨tmp, colonp, curtok, false, 0⟩).bind flush).bind address =
      address ⟨tmp ++ groupBytes (gs.map word), colonp, curtok, false, 0⟩ := by
  rcases List.eq_nil_or_concat' gs with rfl | ⟨init, g, rfl⟩
  · simp [List.intercalate, loop, flush, groupBytes]
  · have hinit : ∀ g' ∈ init, IsGroup g' := fun g' hg' => hgs g' (List.mem_append_left _ hg')
    have hg : IsGroup g := hgs g (by simp)
    simp only [List.length_append, List.length_singleton] at hroom
    have hlast : ¬ (tmp ++ groupBytes (init.map word)).length + INT16SZ > IN6ADDRSZ := by
      simp only [List.length_append, length_groupBytes, List.length_map, INT16SZ]
      omega
    rw [intercalate_concat, loop_groups init hinit (by omega), loop_word_end hg]
    simp only [Option.bind_some, flush, if_true, if_neg hlast, put, List.map_append,
      groupBytes_append, List.append_assoc]
    rfl

/-- The dotted octets at the end of the text. Their first digits are taken for a group until
the dot comes. -/
theorem loop_dotted {text : List Char} {octets : Bytes} (hg : AllDigits xdigit g) (hne : g ≠ [])
    (hle : value xdigit 16 0 g ≤ 0xffff) (hocts : inetPton4 (g ++ '.' :: text) = some octets)
    (hroom : tmp.length + INADDRSZ ≤ IN6ADDRSZ) :
    ((loop (g ++ '.' :: text) ⟨tmp, colonp, g ++ '.' :: text, false, 0⟩).bind flush).bind address =
      address ⟨tmp ++ octets, colonp, g ++ '.' :: text, false, 0⟩ := by
  have hdot : xdigit '.' = none := by decide
  have hcolon : ¬ ('.' : Char) = ':' := by decide
  rw [loop_digits hg hne hle, loop]
  simp only [hdot, hcolon, if_false, hroom, and_self, if_true, hocts, Option.bind_some, flush,
    Bool.false_eq_true]
  rfl

end

end Pton6

theorem leading_group {g : List Char} (hg : IsGroup g) (text : List Char) :
    leading (g ++ text) = some (g ++ text) := by
  have hdigits := hg.digits
  obtain ⟨ch, rest, rfl⟩ := List.exists_cons_of_ne_nil hg.ne_nil
  obtain ⟨d, hd, -⟩ := hdigits.exists_head
  have hcolon : ch ≠ ':' := by
    rintro rfl
    rw [show xdigit ':' = none by decide] at hd
    cases hd
  rw [List.cons_append, leading]
  · intro rest' heq
    exact hcolon (List.cons.inj heq).1
  · intro rest' heq
    exact hcolon (List.cons.inj heq).1

theorem inetPton6_of_leading {src text : List Char} (h : leading src = some text) :
    inetPton6 src =
      ((Pton6.loop text ⟨[], none, text, false, 0⟩).bind Pton6.flush).bind Pton6.address := by
  simp [inetPton6, h, Option.bind_assoc]

theorem inetPton6_groups {gs : List (List Char)} (hgs : ∀ g ∈ gs, IsGroup g)
    (hlen : gs.length = 8) :
    inetPton6 ([':'].intercalate gs) = some (groupBytes (gs.map word)) := by
  have hlead : leading ([':'].intercalate gs) = some ([':'].intercalate gs) := by
    cases gs with
    | nil => simp at hlen
    | cons g gs =>
      cases gs with
      | nil => simp at hlen
      | cons g' gs =>
        rw [List.intercalate_cons_cons, List.append_assoc]
        exact leading_group (hgs g List.mem_cons_self) _
  rw [inetPton6_of_leading hlead, Pton6.loop_address gs hgs (by simp [hlen, IN6ADDRSZ])]
  simp [Pton6.address, hlen, IN6ADDRSZ]

theorem inetPton6_colons {front back : List (List Char)} (hfront : ∀ g ∈ front, IsGroup g)
    (hback : ∀ g ∈ back, IsGroup g) (hlen : front.length + back.length ≤ 8) :
    inetPton6 ([':'].intercalate front ++ ':' :: ':' :: [':'].intercalate back) =
      some (Pton6.shift (groupBytes (front.map word)).length
        (groupBytes (front.map word) ++ groupBytes (back.map word))) := by
  have hroom : (groupBytes (front.map word)).length + 2 * back.length ≤ IN6ADDRSZ := by
    rw [length_groupBytes, List.length_map, IN6ADDRSZ]
    omega
  cases front with
  | nil =>
    have hlead : leading (':' :: ':' :: [':'].intercalate back) =
        some (':' :: [':'].intercalate back) := rfl
    change inetPton6 (':' :: ':' :: [':'].intercalate back) = _
    rw [inetPton6_of_leading hlead, Pton6.loop_colon,
      Pton6.loop_address back hback (show ([] : Bytes).length + _ ≤ _ from hroom)]
    rfl
  | cons g rest =>
    have hlead : leading (terminated ':' (g :: rest) ++ ':' :: [':'].intercalate back) =
        some (terminated ':' (g :: rest) ++ ':' :: [':'].intercalate back) := by
      rw [terminated_cons, List.append_assoc]
      exact leading_group (hfront g List.mem_cons_self) _
    have htext : [':'].intercalate (g :: rest) ++ ':' :: ':' :: [':'].intercalate back =
        terminated ':' (g :: rest) ++ ':' :: [':'].intercalate back := by
      rw [← intercalate_append_sep ':' (List.cons_ne_nil g rest), List.append_assoc]
      rfl
    rw [htext, inetPton6_of_leading hlead,
      Pton6.loop_groups (g :: rest) hfront (by simp only [IN6ADDRSZ, List.length_nil]; omega),
      List.nil_append, Pton6.loop_colon, Pton6.loop_address back hback hroom]
    rfl

theorem inetPton6_abbreviated {front back : List (List Char)} (hfront : ∀ g ∈ front, IsGroup g)
    (hback : ∀ g ∈ back, IsGroup g) (hlen : front.length + back.length < 8) :
    inetPton6 ([':'].intercalate front ++ ':' :: ':' :: [':'].intercalate back) =
      some (groupBytes (front.map word ++
        (List.replicate (8 - (front.length + back.length)) 0 ++ back.map word))) := by
  have hbytes : (groupBytes (front.map word) ++ groupBytes (back.map word)).length =
      2 * (front.length + back.length) := by
    rw [List.length_append, length_groupBytes, length_groupBytes, List.length_map,
      List.length_map, mul_add]
  have hgap : IN6ADDRSZ - 2 * (front.length + back.length) =
      2 * (8 - (front.length + back.length)) := by
    rw [IN6ADDRSZ]
    omega
  rw [inetPton6_colons hfront hback hlen.le, shift_eq (by rw [hbytes, IN6ADDRSZ]; omega), hbytes,
    hgap, groupBytes_append, groupBytes_append, groupBytes_replicate_zero]

/-- Two colons between eight groups are accepted, however these are written. They are not
ignored: all groups behind them become zero. -/
theorem colons_in_full_address {front back : List (List Char)} (hfront : ∀ g ∈ front, IsGroup g)
    (hback : ∀ g ∈ back, IsGroup g) (hlen : front.length + back.length = 8) :
    inetPton6 ([':'].intercalate front ++ ':' :: ':' :: [':'].intercalate back) =
      some (groupBytes (front.map word ++ List.replicate back.length 0)) := by
  have hbytes : (groupBytes (front.map word) ++ groupBytes (back.map word)).length = 16 := by
    rw [List.length_append, length_groupBytes, length_groupBytes, List.length_map, List.length_map]
    omega
  rw [inetPton6_colons hfront hback hlen.le, shift_full hbytes, groupBytes_append,
    groupBytes_replicate_zero, length_groupBytes, List.length_map]

theorem colons_in_full_address_halves :
    inetPton6 "0001:2:B:b::5:6:7:8".toList =
      some [0, 1, 0, 2, 0, 11, 0, 11, 0, 0, 0, 0, 0, 0, 0, 0] :=
  @colons_in_full_address [['0', '0', '0', '1'], ['2'], ['B'], ['b']]
    [['5'], ['6'], ['7'], ['8']] (by decide) (by decide) rfl

end NetworkPrograms.Inet
