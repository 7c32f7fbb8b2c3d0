import NetworkPrograms.Unp.InetPton

/-!
# Texts of addresses

`inet_ntop4` and `inet_ntop6` of `libfree/inet_ntop.c`. An address of sixteen bytes is
printed as eight groups. The longest run of zero groups is left out, and the last four bytes
are printed as octets if the address holds an address of the other family. `src` is a
pointer to the bytes.
-/
namespace NetworkPrograms.Inet

open Function Numerals

/-! ## `inet_ntop4` -/

def dotted (src : ℕ → UInt8) : List Char :=
  ['.'].intercalate ((List.range INADDRSZ).map fun i => Nat.toDigits 10 (src i).toNat)

/-- The size is compared with the length of the text without the NUL behind it. -/
def inetNtop4 (src : ℕ → UInt8) (size : ℕ) : Option (List Char) :=
  let tmp := dotted src
  if tmp.length > size then none else some tmp

theorem digit_digitChar : ∀ d < 10, digit (Nat.digitChar d) = some d := by decide

theorem isOctet_toDigits (b : UInt8) : IsOctet (Nat.toDigits 10 b.toNat) where
  ne_nil := Nat.toDigits_ne_nil
  digits := allDigits_toDigits (by decide) digit_digitChar _
  le := by
    have hvalue : decimal (Nat.toDigits 10 b.toNat) = b.toNat :=
      value_toDigits (by decide) digit_digitChar _
    have hlt := b.toNat_lt
    omega

theorem inetPton4_dotted (src : ℕ → UInt8) :
    inetPton4 (dotted src) = some ((List.range INADDRSZ).map src) := by
  rw [dotted, inetPton4_of_octets, List.map_map]
  · congr 1
    apply List.map_congr_left
    intro i _
    have hvalue : decimal (Nat.toDigits 10 (src i).toNat) = (src i).toNat :=
      value_toDigits (by decide) digit_digitChar _
    simp [hvalue]
  · rw [List.length_map, List.length_range, INADDRSZ]
  · intro g hg
    obtain ⟨i, -, rfl⟩ := List.mem_map.mp hg
    exact isOctet_toDigits (src i)

/-! ## The run of zeros -/

/-- The words of an address: `words[i / 2] |= (src[i] << ((1 - (i % 2)) << 3))`. -/
def words (src : ℕ → UInt8) : ℕ → ℕ :=
  (List.range IN6ADDRSZ).foldl
    (fun words i =>
      update words (i / 2) (words (i / 2) ||| (src i).toNat <<< ((1 - i % 2) <<< 3)))
    fun _ => 0

structure Run where
  base : ℕ
  len : ℕ
  deriving DecidableEq

/-- The comparison of the run that has ended with the best one. -/
def better (best cur : Option Run) : Option Run :=
  match cur, best with
  | none, best => best
  | some c, none => some c
  | some c, some b => if c.len > b.len then some c else some b

/-- The body of the search: the best run and the current one. -/
def searchStep (words : ℕ → ℕ) (s : Option Run × Option Run) (i : ℕ) :
    Option Run × Option Run :=
  if words i = 0 then
    (s.1, match s.2 with
      | none => some ⟨i, 1⟩
      | some c => some { c with len := c.len + 1 })
  else (better s.1 s.2, none)

def search (words : ℕ → ℕ) (n : ℕ) : Option Run × Option Run :=
  (List.range n).foldl (searchStep words) (none, none)

def bestRun (words : ℕ → ℕ) : Option Run :=
  let s := search words (IN6ADDRSZ / INT16SZ)
  (better s.1 s.2).filter fun best => ¬ best.len < 2

def Zeros (words : ℕ → ℕ) (base len : ℕ) : Prop := ∀ i, base ≤ i → i < base + len → words i = 0

theorem map_zeros {words : ℕ → ℕ} {base len : ℕ} (h : Zeros words base len) :
    (List.range' base len).map words = List.replicate len 0 := by
  rw [List.eq_replicate_iff]
  refine ⟨by simp, ?_⟩
  intro w hw
  obtain ⟨k, hk, rfl⟩ := List.mem_map.mp hw
  have hk := List.mem_range'_1.mp hk
  exact h k hk.1 hk.2

/-- Longer, or as long and not behind. -/
def Run.Beats (r : Run) (base len : ℕ) : Prop := len < r.len ∨ len = r.len ∧ r.base ≤ base

/-- The search has seen `n` words. Every run among them is beaten by the best one, or lies in
the current one. -/
structure Searched (words : ℕ → ℕ) (n : ℕ) (best cur : Option Run) : Prop where
  best_zeros : ∀ r, best = some r → Zeros words r.base r.len ∧ r.base + r.len ≤ n
  cur_zeros : ∀ c, cur = some c → Zeros words c.base c.len ∧ c.base + c.len = n
  cur_first : ∀ c, cur = some c → c.base = 0 ∨ words (c.base - 1) ≠ 0
  cur_none : cur = none → n = 0 ∨ words (n - 1) ≠ 0
  before : ∀ r c, best = some r → cur = some c → r.base ≤ c.base
  seen : ∀ base len, 0 < len → base + len ≤ n → Zeros words base len →
    (∃ r, best = some r ∧ r.Beats base len) ∨ ∃ c, cur = some c ∧ c.base ≤ base

section
variable {words : ℕ → ℕ} {n : ℕ} {best cur : Option Run}

theorem Searched.better (h : Searched words n best cur) :
    (∀ r, better best cur = some r → Zeros words r.base r.len ∧ r.base + r.len ≤ n) ∧
      ∀ base len, 0 < len → base + len ≤ n → Zeros words base len →
        ∃ r, Inet.better best cur = some r ∧ r.Beats base len := by
  cases cur with
  | none =>
    refine ⟨h.best_zeros, ?_⟩
    intro base len hpos hle hzeros
    rcases h.seen base len hpos hle hzeros with hbest | ⟨c, hc, -⟩
    · exact hbest
    · cases hc
  | some c =>
    obtain ⟨hc, hend⟩ := h.cur_zeros c rfl
    cases best with
    | none =>
      constructor
      · intro r hr
        cases hr
        exact ⟨hc, hend.le⟩
      · intro base len hpos hle hzeros
        refine ⟨c, rfl, ?_⟩
        rcases h.seen base len hpos hle hzeros with ⟨r, hr, -⟩ | ⟨c', hc', hbase⟩
        · cases hr
        · cases hc'
          unfold Run.Beats
          omega
    | some b =>
      have hbefore := h.before b c rfl rfl
      by_cases hlonger : c.len > b.len
      · rw [Inet.better, if_pos hlonger]
        constructor
        · intro r hr
          cases hr
          exact ⟨hc, hend.le⟩
        · intro base len hpos hle hzeros
          refine ⟨c, rfl, ?_⟩
          unfold Run.Beats
          rcases h.seen base len hpos hle hzeros with ⟨r, hr, hbeats⟩ | ⟨c', hc', hbase⟩
          · cases hr
            unfold Run.Beats at hbeats
            omega
          · cases hc'
            omega
      · rw [Inet.better, if_neg hlonger]
        refine ⟨h.best_zeros, ?_⟩
        intro base len hpos hle hzeros
        refine ⟨b, rfl, ?_⟩
        rcases h.seen base len hpos hle hzeros with ⟨r, hr, hbeats⟩ | ⟨c', hc', hbase⟩
        · cases hr
          exact hbeats
        · cases hc'
          unfold Run.Beats
          omega

theorem Searched.zero (h : Searched words n best cur) (hn : words n = 0) :
    Searched words (n + 1) best (searchStep words (best, cur) n).2 := by
  have hbest : ∀ r, best = some r → Zeros words r.base r.len ∧ r.base + r.len ≤ n + 1 := by
    intro r hr
    obtain ⟨hz, hle⟩ := h.best_zeros r hr
    exact ⟨hz, by omega⟩
  cases cur with
  | none =>
    simp only [searchStep, hn, if_true]
    refine ⟨hbest, ?_, ?_, ?_, ?_, ?_⟩
    · intro c hc
      cases hc
      refine ⟨?_, rfl⟩
      intro i hi hi'
      simp only at hi hi'
      rw [show i = n by omega]
      exact hn
    · intro c hc
      cases hc
      exact h.cur_none rfl
    · intro hc
      cases hc
    · intro r c hr hc
      cases hc
      have hle := (h.best_zeros r hr).2
      simp only
      omega
    · intro base len hpos hle hzeros
      by_cases hold : base + len ≤ n
      · rcases h.seen base len hpos hold hzeros with hbeaten | ⟨c, hc, -⟩
        · exact .inl hbeaten
        · cases hc
      · refine .inr ⟨_, rfl, ?_⟩
        by_contra hbase
        simp only [not_le] at hbase
        rcases h.cur_none rfl with h0 | hne
        · omega
        · exact hne (hzeros (n - 1) (by omega) (by omega))
  | some c =>
    obtain ⟨hc, hend⟩ := h.cur_zeros c rfl
    simp only [searchStep, hn, if_true]
    refine ⟨hbest, ?_, ?_, ?_, ?_, ?_⟩
    · intro c' hc'
      cases hc'
      refine ⟨?_, by simp only; omega⟩
      intro i hi hi'
      by_cases hlast : i = n
      · rw [hlast]
        exact hn
      · exact hc i hi (by simp only at hi'; omega)
    · intro c' hc'
      cases hc'
      exact h.cur_first c rfl
    · intro hc'
      cases hc'
    · intro r c' hr hc'
      cases hc'
      exact h.before r c hr rfl
    · intro base len hpos hle hzeros
      by_cases hold : base + len ≤ n
      · rcases h.seen base len hpos hold hzeros with hbeaten | ⟨c', hc', hbase⟩
        · exact .inl hbeaten
        · cases hc'
          exact .inr ⟨_, rfl, hbase⟩
      · refine .inr ⟨_, rfl, ?_⟩
        by_contra hbase
        simp only [not_le] at hbase
        rcases h.cur_first c rfl with h0 | hne
        · omega
        · exact hne (hzeros (c.base - 1) (by omega) (by omega))

theorem Searched.nonzero (h : Searched words n best cur) (hn : words n ≠ 0) :
    Searched words (n + 1) (Inet.better best cur) none := by
  obtain ⟨hzeros, hseen⟩ := h.better
  refine ⟨?_, ?_, ?_, fun _ => .inr hn, ?_, ?_⟩
  · intro r hr
    obtain ⟨hz, hle⟩ := hzeros r hr
    exact ⟨hz, by omega⟩
  · intro c hc
    cases hc
  · intro c hc
    cases hc
  · intro r c _ hc
    cases hc
  · intro base len hpos hle hz
    left
    apply hseen base len hpos _ hz
    by_contra hlast
    exact hn (hz n (by omega) (by omega))

theorem searched (words : ℕ → ℕ) (n : ℕ) :
    Searched words n (search words n).1 (search words n).2 := by
  induction n with
  | zero =>
    refine ⟨?_, ?_, ?_, fun _ => .inl rfl, ?_, ?_⟩
    · intro r hr
      cases hr
    · intro c hc
      cases hc
    · intro c hc
      cases hc
    · intro r c hr _
      cases hr
    · intro base len hpos hle _
      omega
  | succ n ih =>
    have hstep : search words (n + 1) = searchStep words (search words n) n := by
      rw [search, List.range_succ, List.foldl_append]
      rfl
    rw [hstep]
    by_cases hn : words n = 0
    · have hbest : (searchStep words (search words n) n).1 = (search words n).1 := by
        simp [searchStep, hn]
      rw [hbest]
      exact ih.zero hn
    · rw [searchStep, if_neg hn]
      exact ih.nonzero hn

end

theorem bestRun_some {words : ℕ → ℕ} {r : Run} (h : bestRun words = some r) :
    Zeros words r.base r.len ∧ r.base + r.len ≤ 8 ∧ 2 ≤ r.len ∧
      ∀ base len, 0 < len → base + len ≤ 8 → Zeros words base len → r.Beats base len := by
  obtain ⟨hzeros, hseen⟩ := (searched words 8).better
  obtain ⟨hbest, hlen⟩ := Option.filter_eq_some_iff.mp h
  obtain ⟨hz, hle⟩ := hzeros r hbest
  refine ⟨hz, hle, not_lt.mp (of_decide_eq_true hlen), ?_⟩
  intro base len hpos hend hrun
  obtain ⟨r', hr', hbeats⟩ := hseen base len hpos hend hrun
  cases hbest.symm.trans hr'
  exact hbeats

theorem bestRun_none {words : ℕ → ℕ} (h : bestRun words = none) {base len : ℕ}
    (hend : base + len ≤ 8) (hrun : Zeros words base len) : len < 2 := by
  obtain ⟨-, hseen⟩ := (searched words 8).better
  by_contra hlen
  obtain ⟨r, hr, hbeats⟩ := hseen base len (by omega) hend hrun
  have hshort := Option.filter_eq_none_iff.mp h r hr
  simp only [not_lt, decide_eq_true_eq, not_le] at hshort
  unfold Run.Beats at hbeats
  omega

/-! ## `inet_ntop6` -/

def TMPSZ : ℕ := "ffff:ffff:ffff:ffff:ffff:ffff:255.255.255.255".length + 1

def inside (best : Option Run) (i : ℕ) : Bool :=
  best.any fun b => b.base ≤ i ∧ i < b.base + b.len

def encapsulated (best : Option Run) (words : ℕ → ℕ) (i : ℕ) : Bool :=
  i = 6 ∧ best.any fun b => b.base = 0 ∧ (b.len = 6 ∨ b.len = 5 ∧ words 5 = 0xffff)

/-- The loop over the words, in which `tp` is the text before the pointer `tp`. -/
def format (src : ℕ → UInt8) (words : ℕ → ℕ) (best : Option Run) :
    List ℕ → List Char → Option (List Char)
  | [], tp => some tp
  | i :: is, tp =>
    if inside best i then
      format src words best is (if best.any fun b => i = b.base then tp ++ [':'] else tp)
    else
      let tp := if i ≠ 0 then tp ++ [':'] else tp
      if encapsulated best words i then
        match inetNtop4 (fun k => src (12 + k)) (TMPSZ - tp.length) with
        | some text => some (tp ++ text)
        | none => none
      else format src words best is (tp ++ hex (words i))

def trailing (best : Option Run) : Bool :=
  best.any fun b => b.base + b.len = IN6ADDRSZ / INT16SZ

def inetNtop6 (src : ℕ → UInt8) (size : ℕ) : Option (List Char) := do
  let words := words src
  let best := bestRun words
  let tp ← format src words best (List.range (IN6ADDRSZ / INT16SZ)) []
  let tmp := if trailing best then tp ++ [':'] else tp
  if tmp.length + 1 > size then none else some tmp

/-! ### The words and the bytes -/

theorem words_steps (src : ℕ → UInt8) (n k : ℕ) :
    (List.range n).foldl
      (fun words i =>
        update words (i / 2) (words (i / 2) ||| (src i).toNat <<< ((1 - i % 2) <<< 3)))
      (fun _ => 0) k =
    (if 2 * k < n then (src (2 * k)).toNat <<< 8 else 0) |||
      if 2 * k + 1 < n then (src (2 * k + 1)).toNat else 0 := by
  induction n with
  | zero => simp
  | succ n ih =>
    rw [List.range_succ, List.foldl_append, List.foldl_cons, List.foldl_nil, update_apply]
    by_cases hk : k = n / 2
    · rw [if_pos hk, ← hk, ih]
      rcases Nat.even_or_odd' n with ⟨m, rfl | rfl⟩
      · obtain rfl : k = m := by omega
        simp
      · obtain rfl : k = m := by omega
        simp
    · rw [if_neg hk, ih]
      have hfirst : 2 * k < n + 1 ↔ 2 * k < n := by omega
      have hsecond : 2 * k + 1 < n + 1 ↔ 2 * k + 1 < n := by omega
      simp only [hfirst, hsecond]

theorem words_eq (src : ℕ → UInt8) {k : ℕ} (hk : k < 8) :
    words src k = (src (2 * k)).toNat * 256 + (src (2 * k + 1)).toNat := by
  have hsteps := words_steps src 16 k
  rw [if_pos (by omega), if_pos (by omega),
    ← Nat.shiftLeft_add_eq_or_of_lt (src (2 * k + 1)).toNat_lt, Nat.shiftLeft_eq] at hsteps
  exact hsteps

theorem words_lt (src : ℕ → UInt8) {k : ℕ} (hk : k < 8) : words src k < 2 ^ 16 := by
  have hhigh := (src (2 * k)).toNat_lt
  have hlow := (src (2 * k + 1)).toNat_lt
  rw [words_eq src hk]
  omega

theorem wordBytes_words (src : ℕ → UInt8) {k : ℕ} (hk : k < 8) :
    wordBytes (words src k) = [src (2 * k), src (2 * k + 1)] := by
  have hlow := (src (2 * k + 1)).toNat_lt
  rw [wordBytes, words_eq src hk, Nat.shiftRight_eq_div_pow]
  have hdiv : ((src (2 * k)).toNat * 256 + (src (2 * k + 1)).toNat) / 2 ^ 8 =
      (src (2 * k)).toNat := by
    omega
  have hmod : UInt8.ofNat ((src (2 * k)).toNat * 256 + (src (2 * k + 1)).toNat) =
      src (2 * k + 1) := by
    apply UInt8.toNat_inj.mp
    rw [UInt8.toNat_ofNat']
    omega
  rw [hdiv, hmod, UInt8.ofNat_toNat]

theorem groupBytes_words (src : ℕ → UInt8) {n : ℕ} (hn : n ≤ 8) :
    groupBytes ((List.range n).map (words src)) = (List.range (2 * n)).map src := by
  induction n with
  | zero => rfl
  | succ n ih =>
    rw [List.range_succ, List.map_append, groupBytes_append, ih (by omega), mul_add,
      List.range_add, List.map_append]
    congr 1
    exact (List.append_nil _).trans (wordBytes_words src (by omega))

/-! ### The text -/

def group (words : ℕ → ℕ) (i : ℕ) : List Char :=
  (if i ≠ 0 then [':'] else []) ++ hex (words i)

section
variable {src : ℕ → UInt8} {words : ℕ → ℕ} {best : Option Run}

theorem format_groups {is : List ℕ} (hin : ∀ i ∈ is, inside best i = false)
    (henc : ∀ i ∈ is, encapsulated best words i = false) (js : List ℕ) (tp : List Char) :
    format src words best (is ++ js) tp =
      format src words best js (tp ++ is.flatMap (group words)) := by
  induction is generalizing tp with
  | nil => simp
  | cons i is ih =>
    have hgroup : (if i ≠ 0 then tp ++ [':'] else tp) ++ hex (words i) = tp ++ group words i := by
      unfold group
      split_ifs <;> simp
    rw [List.cons_append, format]
    simp only [hin i List.mem_cons_self, henc i List.mem_cons_self, Bool.false_eq_true, if_false]
    rw [hgroup, ih (fun j hj => hin j (List.mem_cons_of_mem i hj))
      (fun j hj => henc j (List.mem_cons_of_mem i hj)), List.flatMap_cons, List.append_assoc]

theorem format_zeros {r : Run} {is : List ℕ} (his : ∀ i ∈ is, r.base < i ∧ i < r.base + r.len)
    (js : List ℕ) (tp : List Char) :
    format src words (some r) (is ++ js) tp = format src words (some r) js tp := by
  induction is with
  | nil => rfl
  | cons i is ih =>
    obtain ⟨hbase, hend⟩ := his i List.mem_cons_self
    have hin : inside (some r) i = true := by
      simp [inside, hbase.le, hend]
    have hne : ¬ i = r.base := by omega
    rw [List.cons_append, format]
    simp only [hin, if_true, Option.any_some, hne, decide_false, Bool.false_eq_true, if_false]
    exact ih fun j hj => his j (List.mem_cons_of_mem i hj)

theorem format_run {r : Run} (hlen : 0 < r.len) (js : List ℕ) (tp : List Char) :
    format src words (some r) (List.range' r.base r.len ++ js) tp =
      format src words (some r) js (tp ++ [':']) := by
  obtain ⟨len, hlen⟩ := Nat.exists_eq_add_of_lt hlen
  rw [zero_add] at hlen
  have hin : inside (some r) r.base = true := by
    simp [inside, hlen]
  rw [hlen, List.range'_succ, List.cons_append, format]
  simp only [hin, if_true, Option.any_some, decide_true]
  apply format_zeros
  intro i hi
  rw [List.mem_range'_1] at hi
  omega

theorem flatMap_group_eq {is : List ℕ} (his : ∀ i ∈ is, i ≠ 0) :
    is.flatMap (group words) = ((is.map words).map hex).flatMap fun g => ':' :: g := by
  rw [List.map_map, List.flatMap_map]
  apply List.flatMap_congr
  intro i hi
  simp [group, his i hi]

theorem flatMap_group {base n : ℕ} (hbase : 0 < base) (hn : 0 < n) :
    (List.range' base n).flatMap (group words) =
      ':' :: [':'].intercalate (((List.range' base n).map words).map hex) := by
  obtain ⟨m, rfl⟩ : ∃ m, n = m + 1 := ⟨n - 1, by omega⟩
  rw [flatMap_group_eq, List.range'_succ, List.map_cons, List.map_cons, ← append_flatMap_sep]
  · rfl
  · intro i hi
    rw [List.mem_range'_1] at hi
    omega

theorem flatMap_group_zero (n : ℕ) :
    (List.range n).flatMap (group words) =
      [':'].intercalate (((List.range n).map words).map hex) := by
  cases n with
  | zero => rfl
  | succ n =>
    rw [List.range_eq_range', List.range'_succ, List.flatMap_cons, flatMap_group_eq, List.map_cons,
      List.map_cons, ← append_flatMap_sep]
    · rfl
    · intro i hi
      rw [List.mem_range'_1] at hi
      omega

end

/-- The text of an address. -/
structure Prints (src : ℕ → UInt8) (text : List Char) : Prop where
  length_lt : text.length < TMPSZ
  ntop : ∀ size, inetNtop6 src size = if text.length + 1 > size then none else some text
  pton : inetPton6 text = some ((List.range IN6ADDRSZ).map src)

theorem length_hex_le {ws : List ℕ} (hws : ∀ w ∈ ws, w < 2 ^ 16) :
    ∀ g ∈ ws.map hex, g.length ≤ 4 := by
  intro g hg
  obtain ⟨w, hw, rfl⟩ := List.mem_map.mp hg
  exact Nat.toDigits_length 16 w 4 (by decide) (hws w hw)

theorem inetNtop6_of_format {src : ℕ → UInt8} {tp : List Char}
    (h : format src (words src) (bestRun (words src)) (List.range 8) [] = some tp) (size : ℕ) :
    inetNtop6 src size =
      let text := if trailing (bestRun (words src)) then tp ++ [':'] else tp
      if text.length + 1 > size then none else some text := by
  unfold inetNtop6
  simp only
  rw [show IN6ADDRSZ / INT16SZ = 8 from rfl, h]
  rfl

section
variable {src : ℕ → UInt8}

theorem prints_of_none (h : bestRun (words src) = none) :
    Prints src ([':'].intercalate (((List.range 8).map (words src)).map hex)) := by
  have hws : ∀ w ∈ (List.range 8).map (words src), w < 2 ^ 16 := by
    intro w hw
    obtain ⟨k, hk, rfl⟩ := List.mem_map.mp hw
    exact words_lt src (List.mem_range.mp hk)
  have hformat : format src (words src) none (List.range 8 ++ []) [] =
      some ([':'].intercalate (((List.range 8).map (words src)).map hex)) := by
    rw [format_groups (fun _ _ => rfl) (by simp [encapsulated]), format, List.nil_append,
      flatMap_group_zero]
  rw [List.append_nil, ← h] at hformat
  constructor
  · have hlen := length_intercalate_le ':' (length_hex_le hws)
    rw [List.length_map, List.length_map, List.length_range] at hlen
    exact hlen.trans_lt (by decide)
  · intro size
    rw [inetNtop6_of_format hformat]
    simp [h, trailing]
  · rw [inetPton6_groups (isGroup_of_mem_map_hex hws) (by simp), map_word_hex,
      groupBytes_words src le_rfl]
    rfl

theorem range_eq_of_run {r : Run} (hend : r.base + r.len ≤ 8) :
    List.range 8 = List.range r.base ++ (List.range' r.base r.len ++
      List.range' (r.base + r.len) (8 - (r.base + r.len))) := by
  rw [List.range_eq_range', List.range_eq_range', List.range'_append_1]
  have hfront : List.range' 0 r.base ++
      List.range' (0 + r.base) (r.len + (8 - (r.base + r.len))) =
      List.range' 0 (r.base + (r.len + (8 - (r.base + r.len)))) := List.range'_append_1
  rw [zero_add] at hfront
  rw [hfront]
  congr 1
  omega

theorem prints_of_run {r : Run} (h : bestRun (words src) = some r)
    (henc : encapsulated (some r) (words src) 6 = false) :
    Prints src ([':'].intercalate (((List.range r.base).map (words src)).map hex) ++
      ':' :: ':' :: [':'].intercalate
        (((List.range' (r.base + r.len) (8 - (r.base + r.len))).map (words src)).map hex)) := by
  obtain ⟨hzeros, hend, hlen, -⟩ := bestRun_some h
  have hrange := range_eq_of_run hend
  have hnone : ∀ i, encapsulated (some r) (words src) i = false := by
    intro i
    by_cases hi : i = 6
    · rw [hi]
      exact henc
    · simp [encapsulated, hi]
  have hfront : ∀ w ∈ (List.range r.base).map (words src), w < 2 ^ 16 := by
    intro w hw
    obtain ⟨k, hk, rfl⟩ := List.mem_map.mp hw
    have hk := List.mem_range.mp hk
    exact words_lt src (by omega)
  have hback : ∀ w ∈ (List.range' (r.base + r.len) (8 - (r.base + r.len))).map (words src),
      w < 2 ^ 16 := by
    intro w hw
    obtain ⟨k, hk, rfl⟩ := List.mem_map.mp hw
    have hk := List.mem_range'_1.mp hk
    exact words_lt src (by omega)
  have hformat : format src (words src) (some r) (List.range 8) [] =
      some ([':'].intercalate (((List.range r.base).map (words src)).map hex) ++ [':'] ++
        (List.range' (r.base + r.len) (8 - (r.base + r.len))).flatMap (group (words src))) := by
    rw [hrange, format_groups _ fun i _ => hnone i, format_run (by omega), List.nil_append,
      ← List.append_nil (List.range' (r.base + r.len) _), format_groups _ fun i _ => hnone i,
      format, flatMap_group_zero, List.append_nil]
    · intro i hi
      have hi := List.mem_range'_1.mp hi
      simp only [inside, Option.any_some, decide_eq_false_iff_not]
      omega
    · intro i hi
      have hi := List.mem_range.mp hi
      simp only [inside, Option.any_some, decide_eq_false_iff_not]
      omega
  constructor
  · have hf := length_intercalate_le ':' (length_hex_le hfront)
    have hb := length_intercalate_le ':' (length_hex_le hback)
    simp only [List.length_map, List.length_range, List.length_range'] at hf hb
    simp only [List.length_append, List.length_cons]
    have htmp : TMPSZ = 46 := rfl
    omega
  · intro size
    rw [← h] at hformat
    rw [inetNtop6_of_format hformat, h]
    by_cases htrail : r.base + r.len = 8
    · have hno : 8 - (r.base + r.len) = 0 := by omega
      have ht : trailing (some r) = true := by
        simp [trailing, htrail, IN6ADDRSZ, INT16SZ]
      simp [ht, hno, List.intercalate]
    · have ht : trailing (some r) = false := by
        simp [trailing, htrail, IN6ADDRSZ, INT16SZ]
      rw [flatMap_group (by omega) (by omega)]
      simp [ht]
  · rw [inetPton6_abbreviated (isGroup_of_mem_map_hex hfront) (isGroup_of_mem_map_hex hback)
      (by simp; omega), map_word_hex, map_word_hex]
    simp only [List.length_map, List.length_range, List.length_range']
    rw [show 8 - (r.base + (8 - (r.base + r.len))) = r.len by omega, ← map_zeros hzeros,
      ← List.map_append, ← List.map_append, ← hrange, groupBytes_words src le_rfl]
    rfl

theorem value_toDigits_octet : ∀ n < 256, value xdigit 16 0 (Nat.toDigits 10 n) ≤ 0xffff := by
  decide +kernel

theorem dotted_eq (src : ℕ → UInt8) :
    ∃ text, dotted src = Nat.toDigits 10 (src 0).toNat ++ '.' :: text := by
  rw [dotted, show List.range INADDRSZ = 0 :: 1 :: [2, 3] from rfl, List.map_cons, List.map_cons,
    List.intercalate_cons_cons, List.append_assoc]
  exact ⟨_, rfl⟩

theorem length_dotted_le (src : ℕ → UInt8) : (dotted src).length ≤ 15 := by
  have hlen : ∀ g ∈ (List.range INADDRSZ).map fun i => Nat.toDigits 10 (src i).toNat,
      g.length ≤ 3 := by
    intro g hg
    obtain ⟨i, -, rfl⟩ := List.mem_map.mp hg
    have hlt := (src i).toNat_lt
    exact Nat.toDigits_length 10 _ 3 (by decide) (by omega)
  have hle := length_intercalate_le '.' hlen
  rw [List.length_map, List.length_range] at hle
  exact hle

theorem format_octets {words : ℕ → ℕ} {best : Option Run} {tp : List Char}
    (hin : inside best 6 = false) (henc : encapsulated best words 6 = true) (htp : tp.length ≤ 30)
    (is : List ℕ) :
    format src words best (6 :: is) tp = some (tp ++ ':' :: dotted fun k => src (12 + k)) := by
  have hlen := length_dotted_le fun k => src (12 + k)
  have hroom : ¬ (dotted fun k => src (12 + k)).length > TMPSZ - (tp ++ [':']).length := by
    rw [List.length_append, List.length_singleton, show TMPSZ = 46 from rfl]
    omega
  have hne : (6 : ℕ) ≠ 0 := by decide
  rw [format]
  simp only [hin, henc, Bool.false_eq_true, if_false, if_true, if_pos hne, inetNtop4, if_neg hroom]
  rw [List.append_assoc]
  rfl

theorem inetPton6_octets {ws : List ℕ} (hws : ∀ w ∈ ws, w < 2 ^ 16) (hlen : ws.length < 6)
    (octets : ℕ → UInt8) :
    inetPton6 (':' :: ':' :: (terminated ':' (ws.map hex) ++ dotted octets)) =
      some (groupBytes (List.replicate (6 - ws.length) 0 ++ ws) ++
        (List.range INADDRSZ).map octets) := by
  have hlead : leading (':' :: ':' :: (terminated ':' (ws.map hex) ++ dotted octets)) =
      some (':' :: (terminated ':' (ws.map hex) ++ dotted octets)) := rfl
  have hcurtok : (if ws.map hex = [] then terminated ':' (ws.map hex) ++ dotted octets
      else dotted octets) = dotted octets := by
    split_ifs with hnil
    · simp [hnil]
    · rfl
  have hbytes : (groupBytes ws ++ (List.range INADDRSZ).map octets).length =
      2 * ws.length + 4 := by
    rw [List.length_append, length_groupBytes, List.length_map, List.length_range, INADDRSZ]
  have hshift := shift_eq (show ([] ++ (groupBytes ws ++ (List.range INADDRSZ).map octets)).length <
    IN6ADDRSZ by rw [List.nil_append, hbytes, IN6ADDRSZ]; omega)
  rw [List.nil_append, hbytes, show IN6ADDRSZ - (2 * ws.length + 4) = 2 * (6 - ws.length) by
    rw [IN6ADDRSZ]; omega, List.nil_append, ← groupBytes_replicate_zero, ← List.append_assoc,
    ← groupBytes_append] at hshift
  have hocts := inetPton4_dotted octets
  obtain ⟨text, htext⟩ := dotted_eq octets
  rw [inetPton6_of_leading hlead, Pton6.loop_colon,
    Pton6.loop_groups (ws.map hex) (isGroup_of_mem_map_hex hws)
      (by simp only [IN6ADDRSZ, List.length_nil, List.length_map]; omega), hcurtok, map_word_hex]
  rw [htext] at hocts ⊢
  rw [Pton6.loop_dotted (allDigits_toDigits (by decide) _ _) Nat.toDigits_ne_nil
    (value_toDigits_octet _ (octets 0).toNat_lt) hocts]
  · exact congrArg some hshift
  · simp only [List.nil_append, length_groupBytes, INADDRSZ, IN6ADDRSZ]
    omega
  · intro d hd
    exact xdigit_digitChar d (by omega)

theorem encapsulated_run {words : ℕ → ℕ} {r : Run} (henc : encapsulated (some r) words 6 = true) :
    r.base = 0 ∧ 5 ≤ r.len ∧ r.len ≤ 6 := by
  simp only [encapsulated, Option.any_some, decide_eq_true_eq, true_and] at henc
  omega

theorem prints_of_encapsulated {r : Run} (h : bestRun (words src) = some r)
    (henc : encapsulated (some r) (words src) 6 = true) :
    Prints src (':' :: ':' ::
      (terminated ':' (((List.range' r.len (6 - r.len)).map (words src)).map hex) ++
        dotted fun k => src (12 + k))) := by
  obtain ⟨hzeros, -, -, -⟩ := bestRun_some h
  obtain ⟨hbase, hlen⟩ := encapsulated_run henc
  rw [hbase] at hzeros
  have hws : ∀ w ∈ (List.range' r.len (6 - r.len)).map (words src), w < 2 ^ 16 := by
    intro w hw
    obtain ⟨k, hk, rfl⟩ := List.mem_map.mp hw
    have hk := List.mem_range'_1.mp hk
    exact words_lt src (by omega)
  have hfew := length_terminated_le ':' (length_hex_le hws)
  rw [List.length_map, List.length_map, List.length_range'] at hfew
  have hdotted := length_dotted_le fun k => src (12 + k)
  have hmid : List.range' 0 r.len ++ List.range' (0 + r.len) (6 - r.len) = List.range 6 := by
    rw [List.range'_append_1, List.range_eq_range']
    congr 1
    omega
  rw [zero_add] at hmid
  have hsep := flatMap_sep_append ':' (((List.range' r.len (6 - r.len)).map (words src)).map hex)
  have hformat : format src (words src) (some r) (List.range 8) [] =
      some (':' :: ':' ::
        (terminated ':' (((List.range' r.len (6 - r.len)).map (words src)).map hex) ++
          dotted fun k => src (12 + k))) := by
    have hrange : List.range 8 =
        List.range' r.base r.len ++ (List.range' r.len (6 - r.len) ++ [6, 7]) := by
      rw [hbase, ← List.append_assoc, hmid]
      rfl
    have hout : ∀ i, r.len ≤ i → inside (some r) i = false := by
      intro i hi
      simp only [inside, Option.any_some, decide_eq_false_iff_not, hbase]
      omega
    have hne : ∀ i ∈ List.range' r.len (6 - r.len), i ≠ 0 ∧ r.len ≤ i ∧ i ≠ 6 := by
      intro i hi
      have hi := List.mem_range'_1.mp hi
      omega
    rw [hrange, format_run (by omega), format_groups (fun i hi => hout i (hne i hi).2.1),
      flatMap_group_eq fun i hi => (hne i hi).1, format_octets (hout 6 (by omega)) henc]
    · rw [List.append_cons, List.append_assoc _ _ [':'], hsep]
      rfl
    · have hcount := congrArg List.length hsep
      simp only [List.length_append, List.length_cons, List.length_nil] at hcount ⊢
      omega
    · intro i hi
      simp [encapsulated, (hne i hi).2.2]
  constructor
  · simp only [List.length_cons, List.length_append]
    have htmp : TMPSZ = 46 := rfl
    omega
  · intro size
    rw [← h] at hformat
    rw [inetNtop6_of_format hformat, h]
    have ht : trailing (some r) = false := by
      have hne : ¬ r.base + r.len = IN6ADDRSZ / INT16SZ := by
        rw [show IN6ADDRSZ / INT16SZ = 8 from rfl]
        omega
      simp [trailing, hne]
    simp [ht]
  · rw [inetPton6_octets hws (by simp; omega)]
    simp only [List.length_map, List.length_range']
    rw [show 6 - (6 - r.len) = r.len by omega, ← map_zeros hzeros, ← List.map_append, hmid,
      groupBytes_words src (by decide)]
    rfl

end

theorem exists_prints (src : ℕ → UInt8) : ∃ text, Prints src text := by
  cases h : bestRun (words src) with
  | none => exact ⟨_, prints_of_none h⟩
  | some r =>
    cases henc : encapsulated (some r) (words src) 6 with
    | false => exact ⟨_, prints_of_run h henc⟩
    | true => exact ⟨_, prints_of_encapsulated h henc⟩

/-- The address holds one of the other family behind its run of zeros: the run is the first
six groups, or the first five and the sixth is `ffff`. -/
def Run.Embeds (r : Run) (words : ℕ → ℕ) : Prop :=
  r.base = 0 ∧ (r.len = 6 ∨ r.len = 5 ∧ words 5 = 0xffff)

theorem encapsulated_iff {words : ℕ → ℕ} {r : Run} :
    encapsulated (some r) words 6 = true ↔ r.Embeds words := by
  simp [encapsulated, Run.Embeds]

/-- The text leaves out the first one of the longest runs of zero groups, if it has at least
two of them. What stands before it are the other groups. What stands behind it are the other
groups too, unless the address holds one of the other family: then it is the sixth group, if
that is not in the run, and the last four octets in decimal. -/
theorem longest_run_left_out (src : ℕ → UInt8) :
    ∃ text, inetNtop6 src TMPSZ = some text ∧
      ((text = [':'].intercalate (((List.range 8).map (words src)).map hex) ∧
          ∀ base len, base + len ≤ 8 → Zeros (words src) base len → len < 2) ∨
        ∃ r : Run, 2 ≤ r.len ∧ r.base + r.len ≤ 8 ∧ Zeros (words src) r.base r.len ∧
          (∀ base len, 0 < len → base + len ≤ 8 → Zeros (words src) base len → r.Beats base len) ∧
          ∃ back, text = [':'].intercalate (((List.range r.base).map (words src)).map hex) ++
              ':' :: ':' :: back ∧
            (¬ r.Embeds (words src) → back = [':'].intercalate (((List.range' (r.base + r.len)
                (8 - (r.base + r.len))).map (words src)).map hex)) ∧
            (r.Embeds (words src) → back = terminated ':' (((List.range' (r.base + r.len)
                (6 - (r.base + r.len))).map (words src)).map hex) ++
                  dotted fun k => src (12 + k))) := by
  have hroom : ∀ {text : List Char}, Prints src text → inetNtop6 src TMPSZ = some text := by
    intro text h
    rw [h.ntop, if_neg (not_lt.mpr h.length_lt)]
  cases h : bestRun (words src) with
  | none => exact ⟨_, hroom (prints_of_none h), .inl ⟨rfl, fun _ _ => bestRun_none h⟩⟩
  | some r =>
    obtain ⟨hzeros, hend, hlen, hbeats⟩ := bestRun_some h
    by_cases hembeds : r.Embeds (words src)
    · have henc := encapsulated_iff.mpr hembeds
      refine ⟨_, hroom (prints_of_encapsulated h henc), .inr ⟨r, hlen, hend, hzeros, hbeats, _, ?_,
        fun hnot => absurd hembeds hnot, fun _ => rfl⟩⟩
      rw [hembeds.1, zero_add]
      rfl
    · have henc : encapsulated (some r) (words src) 6 = false :=
        Bool.eq_false_of_not_eq_true (mt encapsulated_iff.mp hembeds)
      exact ⟨_, hroom (prints_of_run h henc), .inr ⟨r, hlen, hend, hzeros, hbeats, _, rfl,
        fun _ => rfl, fun hyes => absurd hyes hembeds⟩⟩

/-! ## Both families -/

inductive Family
  | AF_INET
  | AF_INET6
  | other
  deriving DecidableEq

def inetNtop (af : Family) (src : ℕ → UInt8) (size : ℕ) : Option (List Char) :=
  match af with
  | .AF_INET => inetNtop4 src size
  | .AF_INET6 => inetNtop6 src size
  | .other => none

/-- The result, and what is stored at `dst`. -/
def inetPton (af : Family) (src : List Char) : ℤ × Option Bytes :=
  match af with
  | .AF_INET => (if (inetPton4 src).isSome then 1 else 0, inetPton4 src)
  | .AF_INET6 => (if (inetPton6 src).isSome then 1 else 0, inetPton6 src)
  | .other => (-1, none)

/-- Every address has a text from which it is read again. The text fits into the array in
which it is made. For a short address the caller's size is compared without the NUL, so
that a size which lacks the place for it is let through. -/
theorem inet_ntop_round_trip (src : ℕ → UInt8) :
    (∃ text, text.length ≤ 15 ∧
      (∀ size, inetNtop .AF_INET src size = if text.length > size then none else some text) ∧
      inetPton .AF_INET text = (1, some ((List.range INADDRSZ).map src))) ∧
    ∃ text, text.length < TMPSZ ∧
      (∀ size, inetNtop .AF_INET6 src size = if text.length + 1 > size then none else some text) ∧
      inetPton .AF_INET6 text = (1, some ((List.range IN6ADDRSZ).map src)) := by
  constructor
  · refine ⟨dotted src, length_dotted_le src, fun _ => rfl, ?_⟩
    simp [inetPton, inetPton4_dotted]
  · obtain ⟨text, hlen, hntop, hpton⟩ := exists_prints src
    refine ⟨text, hlen, hntop, ?_⟩
    simp [inetPton, hpton]

end NetworkPrograms.Inet
