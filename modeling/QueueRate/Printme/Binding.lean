import QueueRate.Lib.Machine
import QueueRate.Printme.RangeStr

/-!
# `printme`: where the calling thread may run, as text

Every benchmark calls `printme (instr)` from each thread once it is pinned.
`printme` asks hwloc for the thread's binding. For each PU of the binding it
sets the bit of the PU's sibling rank in a word for the PU's core
(`data[socket][core] |= 1 << sibling_rank`, `dataOf`). It then writes each
core with a positive word as `socket %d[core %d[hwt %s]]` into `str1`, the
word given as ranges by `bitmap2rangestr` (`str1Loop`). Last it writes each
socket into `str2` as `[`, then its cores' PUs, `B` for a PU of the binding
and `.` for another, `/` between cores, then `]` (`str2Loop`). It prints
`str2`.

Both texts are appended to buffers of `len = 1024` chars with
`strncat (str, src, len - strlen (str))`, which leaves no room for the NUL.
While the whole text fits, the loops leave exactly that text; as soon as it
does not, they write past the buffer (`str1Loop_eq`, `str2Loop_eq`). So
`printme` prints the binding exactly when both texts fit (`printme_eq`).
Whether `str1` lists a core depends on the sign of its word: a core whose
PUs of the binding include one of sibling rank `31` is left out, and a
listed core's ranges are its PUs' ranks (`str1_lists_core_iff`).
-/

namespace QueueRate
namespace Printme

open CStr RangeList

/-- `len`: the size of `str1`, `str2`, `tmp1` and `tmp2`. -/
def len : ℕ := 1024

/-! ### The words of the cores -/

/-- A PU of the binding as the loop over them sees it: the logical index of
the core and of the socket above it, where there is one, and its rank among
its siblings. -/
structure Pu where
  core : Option ℕ
  socket : Option ℕ
  siblingRank : ℕ

/-- The PU lies in core `c` of socket `s`: index `0` where no core or socket
is above it. -/
def Pu.At (pu : Pu) (s c : ℕ) : Prop := pu.socket.getD 0 = s ∧ pu.core.getD 0 = c

instance (pu : Pu) (s c : ℕ) : Decidable (pu.At s c) := inferInstanceAs (Decidable (_ ∧ _))

/-- The loop at one PU: `data[socket_index][core_index] |= (1 << pu->sibling_rank)`.
The shift of an `int` by `31` or more is undefined in C; here it is the
shift of a 32-bit word by the count masked to five bits, as x86's `shl`
computes it. The source assumes ranks below `32` (`LAZY`, `printme.c:168`). -/
def recordPu (data : ℕ → ℕ → BitVec 32) (pu : Pu) : ℕ → ℕ → BitVec 32 :=
  Function.update data (pu.socket.getD 0)
    (Function.update (data (pu.socket.getD 0)) (pu.core.getD 0)
      (data (pu.socket.getD 0) (pu.core.getD 0) ||| 1#32 <<< (pu.siblingRank % 32)))

/-- `data` after the loop over the PUs of the binding, from `calloc`'s zeros. -/
def dataOf (pus : List Pu) : ℕ → ℕ → BitVec 32 := pus.foldl recordPu fun _ _ => 0

theorem getLsbD_one_shiftLeft (r i : ℕ) : (1#32 <<< r).getLsbD i = decide (i < 32 ∧ i = r) := by
  simp only [BitVec.getLsbD_shiftLeft, BitVec.getLsbD_one]
  by_cases h : i = r
  · simp [h]
  · simp only [h, and_false, decide_false]
    by_cases h1 : i < r
    · simp [h1]
    · simp [h1]
      omega

theorem getLsbD_recordPu (data : ℕ → ℕ → BitVec 32) (pu : Pu) (s c i : ℕ) :
    (recordPu data pu s c).getLsbD i =
      ((data s c).getLsbD i || decide (pu.At s c ∧ i < 32 ∧ i = pu.siblingRank % 32)) := by
  unfold recordPu Pu.At
  by_cases hs : s = pu.socket.getD 0
  · by_cases hc : c = pu.core.getD 0
    · subst hs hc
      rw [Function.update_self, Function.update_self, BitVec.getLsbD_or, getLsbD_one_shiftLeft]
      simp
    · simp [hs, hc, Ne.symm hc]
  · simp [hs, Ne.symm hs]

/-- **A core's word has the bits of the sibling ranks of its PUs in the binding.** -/
theorem getLsbD_dataOf (pus : List Pu) (s c i : ℕ) :
    (dataOf pus s c).getLsbD i = true ↔ i < 32 ∧ ∃ pu ∈ pus, pu.At s c ∧ pu.siblingRank % 32 = i := by
  -- the loop from any words: a bit is set before or by one of the PUs
  suffices h : ∀ (data : ℕ → ℕ → BitVec 32), (pus.foldl recordPu data s c).getLsbD i = true ↔
      (data s c).getLsbD i = true ∨ (i < 32 ∧ ∃ pu ∈ pus, pu.At s c ∧ pu.siblingRank % 32 = i) by
    simpa [dataOf] using h fun _ _ => 0
  induction pus with
  | nil => simp
  | cons pu pus ih =>
    intro data
    rw [List.foldl_cons, ih, getLsbD_recordPu]
    simp only [Bool.or_eq_true, decide_eq_true_eq, List.mem_cons, exists_eq_or_imp]
    constructor
    · rintro ((h | ⟨hat, hi, rfl⟩) | ⟨hi, h⟩)
      · exact .inl h
      · exact .inr ⟨hi, .inl ⟨hat, rfl⟩⟩
      · exact .inr ⟨hi, .inr h⟩
    · rintro (h | ⟨hi, ⟨hat, rfl⟩ | h⟩)
      · exact .inl (.inl h)
      · exact .inl (.inr ⟨hat, hi, rfl⟩)
      · exact .inr ⟨hi, h⟩

/-- With the ranks below `32` that the source assumes, a core's bits are
exactly its PUs' ranks. -/
theorem getLsbD_dataOf_of_lt {pus : List Pu} (hr : ∀ pu ∈ pus, pu.siblingRank < 32) (s c i : ℕ) :
    (dataOf pus s c).getLsbD i = true ↔ i < 32 ∧ ∃ pu ∈ pus, pu.At s c ∧ pu.siblingRank = i := by
  rw [getLsbD_dataOf]
  refine and_congr_right fun _ => exists_congr fun pu => and_congr_right fun hpu => ?_
  rw [Nat.mod_eq_of_lt (hr pu hpu)]

/-- `str1` lists the cores whose word is positive as an `int`: those with a
set bit and bit `31` clear. -/
theorem toInt_pos_iff (x : BitVec 32) : 0 < x.toInt ↔ (∃ r < 31, x.getLsbD r = true) ∧ x.getLsbD 31 = false := by
  have h31 : x.getLsbD 31 = decide (2 ^ 31 ≤ x.toNat) := x.getLsbD_last
  have hbit : ∀ r, x.getLsbD r = x.toNat.testBit r := fun _ => rfl
  rw [BitVec.toInt_eq_toNat_cond, h31, decide_eq_false_iff_not, not_le]
  constructor
  · intro h
    split_ifs at h with hlt
    · obtain ⟨r, hr⟩ := Nat.exists_testBit_of_ne_zero (show x.toNat ≠ 0 by omega)
      have hr31 : r < 31 := by
        by_contra hge
        rw [Nat.testBit_lt_two_pow (lt_of_lt_of_le (show x.toNat < 2 ^ 31 by omega)
          (Nat.pow_le_pow_right (by norm_num) (by omega)))] at hr
        cases hr
      exact ⟨⟨r, hr31, by rw [hbit]; exact hr⟩, by omega⟩
    · have := x.isLt
      omega
  · rintro ⟨⟨r, -, hr⟩, hlt⟩
    have hpos : x.toNat ≠ 0 := fun h0 => by rw [hbit, h0, Nat.zero_testBit] at hr; cases hr
    rw [if_pos (by omega)]
    omega

/-- **Which cores `str1` lists, and what it says of them.** For PUs of
sibling rank below `32`, as the source assumes, the test
`map[socket_index][core_index] > 0` admits core `c` of socket `s` exactly
when a PU of the binding in it has sibling rank below `31` and none has rank
`31`; and the `hwt` list written for it reads back as ranges covering
exactly the sibling ranks of its PUs in the binding. -/
theorem str1_lists_core_iff (pus : List Pu) (s c : ℕ) (hr : ∀ pu ∈ pus, pu.siblingRank < 32) :
    (0 < (dataOf pus s c).toInt ↔
      (∃ pu ∈ pus, pu.At s c ∧ pu.siblingRank < 31) ∧ ∀ pu ∈ pus, pu.At s c → pu.siblingRank ≠ 31) ∧
    ∃ hwt rs, bitmap2rangestr (dataOf pus s c) = some hwt ∧ parseRanges hwt = some rs ∧
      ∀ i, Runs.Covers rs i ↔ ∃ pu ∈ pus, pu.At s c ∧ pu.siblingRank = i ∧ i < 32 := by
  refine ⟨?_, _, _, bitmap2rangestr_eq _, parseRanges_fmtRanges _, fun i => ?_⟩
  · rw [toInt_pos_iff]
    -- a set bit below `31` is a PU of such a rank, and bit `31` is clear when no PU has rank `31`
    apply and_congr
    · constructor
      · rintro ⟨r, hr31, hbit⟩
        obtain ⟨-, pu, hpu, hat, rfl⟩ := (getLsbD_dataOf_of_lt hr s c r).mp hbit
        exact ⟨pu, hpu, hat, hr31⟩
      · rintro ⟨pu, hpu, hat, hr31⟩
        exact ⟨pu.siblingRank, hr31, (getLsbD_dataOf_of_lt hr s c _).mpr ⟨by omega, pu, hpu, hat, rfl⟩⟩
    · rw [← Bool.not_eq_true, getLsbD_dataOf_of_lt hr]
      constructor
      · intro h pu hpu hat h31
        exact h ⟨by norm_num, pu, hpu, hat, h31⟩
      · rintro h ⟨-, pu, hpu, hat, h31⟩
        exact h pu hpu hat h31
  · rw [Runs.covers_runs, getLsbD_dataOf_of_lt hr]
    constructor
    · rintro ⟨hi, -, pu, hpu, hat, rfl⟩
      exact ⟨pu, hpu, hat, rfl, hi⟩
    · rintro ⟨pu, hpu, hat, rfl, hi⟩
      exact ⟨hi, hi, pu, hpu, hat, rfl⟩

/-- A core bound with its PUs of ranks `0` and `31`: its word is negative,
so `str1` leaves it out, although its `hwt` list would read `0,31`. -/
theorem str1_lists_core_iff_rankThirtyOne :
    (∀ pu ∈ [(⟨some 0, some 0, 0⟩ : Pu), ⟨some 0, some 0, 31⟩], pu.siblingRank < 32) ∧
      ¬ 0 < (dataOf [⟨some 0, some 0, 0⟩, ⟨some 0, some 0, 31⟩] 0 0).toInt ∧
      ((0 < (dataOf [⟨some 0, some 0, 0⟩, ⟨some 0, some 0, 31⟩] 0 0).toInt ↔
        (∃ pu ∈ [(⟨some 0, some 0, 0⟩ : Pu), ⟨some 0, some 0, 31⟩], pu.At 0 0 ∧ pu.siblingRank < 31) ∧
          ∀ pu ∈ [(⟨some 0, some 0, 0⟩ : Pu), ⟨some 0, some 0, 31⟩], pu.At 0 0 → pu.siblingRank ≠ 31) ∧
      ∃ hwt rs, bitmap2rangestr (dataOf [⟨some 0, some 0, 0⟩, ⟨some 0, some 0, 31⟩] 0 0) = some hwt ∧
        parseRanges hwt = some rs ∧
        ∀ i, Runs.Covers rs i ↔
          ∃ pu ∈ [(⟨some 0, some 0, 0⟩ : Pu), ⟨some 0, some 0, 31⟩], pu.At 0 0 ∧ pu.siblingRank = i ∧ i < 32) :=
  have hr : ∀ pu ∈ [(⟨some 0, some 0, 0⟩ : Pu), ⟨some 0, some 0, 31⟩], pu.siblingRank < 32 := by decide
  ⟨hr, by decide, str1_lists_core_iff _ 0 0 hr⟩

/-! ### `str1` -/

/-- `socket %d[core %d[hwt %s]]`. -/
def coreText (s c : ℕ) (hwt : List Char) : List Char :=
  "socket ".toList ++ fmtD s ++ "[core ".toList ++ fmtD c ++ "[hwt ".toList ++ hwt ++ "]]".toList

/-- The locals of the loops over the words. -/
structure Str1Locals where
  str1 : List Char
  first : Bool

/-- The inner loop at core `c` of socket `s`: a core whose word is positive
is written after `", "` unless it is the first, through `tmp1` of
`stmp = sizeof(tmp1) - 1`. -/
def str1Body (map : ℕ → ℕ → BitVec 32) (s : ℕ) (st : Str1Locals) (c : ℕ) : Option Str1Locals :=
  if 0 < (map s c).toInt then
    (if st.first then some st.str1 else strncat len st.str1 ", ".toList (len - st.str1.length)).bind fun str1 =>
      (bitmap2rangestr (map s c)).bind fun hwt =>
        (strncat len str1 (snprintf (len - 1) (coreText s c hwt)) (len - str1.length)).map fun str1 => ⟨str1, false⟩
  else some st

/-- The loops over the sockets and their cores, from `str1[0] = '\0'` and
`first = true`. -/
def str1Loop (map : ℕ → ℕ → BitVec 32) (nbsockets nbcores : ℕ) : Option (List Char) :=
  ((List.range nbsockets).foldlM (fun st s => (List.range nbcores).foldlM (str1Body map s) st) ⟨[], true⟩).map
    fun st => st.str1

/-- The text of core `c` of socket `s` in `str1`, if it is listed. -/
def coreEntries (map : ℕ → ℕ → BitVec 32) (s c : ℕ) : List (List Char) :=
  if 0 < (map s c).toInt then [coreText s c (fmtRanges (Runs.runs (map s c).getLsbD 32))] else []

/-- The text `str1` is meant to hold: the listed cores, socket by socket,
joined by `", "`. -/
def str1Text (map : ℕ → ℕ → BitVec 32) (nbsockets nbcores : ℕ) : List Char :=
  ", ".toList.intercalate ((List.range nbsockets).flatMap fun s => (List.range nbcores).flatMap (coreEntries map s))

/-- The locals once the cores `es` are written: the text, if it fits. -/
def str1Enc (es : List (List Char)) : Option Str1Locals :=
  (fit len (", ".toList.intercalate es)).map fun t => ⟨t, es.isEmpty⟩

theorem length_toDigits_le_ten {n : ℕ} (h : n < 2 ^ 31) : (Nat.toDigits 10 n).length ≤ 10 :=
  (Nat.length_toDigits_le_iff (by norm_num) (by norm_num)).mpr (by omega)

theorem length_coreText (s c : ℕ) (hwt : List Char) :
    (coreText s c hwt).length = (Nat.toDigits 10 s).length + (Nat.toDigits 10 c).length + hwt.length + 20 := by
  unfold coreText
  simp [fmtD_natCast]
  omega

theorem length_coreText_lt {s c : ℕ} (hs : s < 2 ^ 31) (hc : c < 2 ^ 31) {hwt : List Char} (hhwt : hwt.length ≤ 192) :
    (coreText s c hwt).length < len - 1 := by
  have h1 := length_toDigits_le_ten hs
  have h2 := length_toDigits_le_ten hc
  rw [length_coreText]
  unfold len
  omega

theorem str1Enc_bind_comma (es : List (List Char)) :
    (str1Enc es).bind (fun st => if st.first then some st.str1
      else strncat len st.str1 ", ".toList (len - st.str1.length)) =
      fit len (if es = [] then [] else ", ".toList.intercalate es ++ ", ".toList) := by
  by_cases hes : es = []
  · subst hes
    rfl
  · rw [str1Enc, Option.bind_map, if_neg hes, ← fit_bind_strncat]
    congr 1
    funext t
    simp [hes]

/-- **One pass of the inner loop** adds the core's text, if it is listed. -/
theorem str1Enc_bind_str1Body (map : ℕ → ℕ → BitVec 32) {s c : ℕ} (hs : s < 2 ^ 31) (hc : c < 2 ^ 31)
    (es : List (List Char)) :
    (str1Enc es).bind (fun st => str1Body map s st c) = str1Enc (es ++ coreEntries map s c) := by
  unfold coreEntries
  by_cases hpos : 0 < (map s c).toInt
  · -- the text before the core, then the core
    have hjoin : ∀ e, (if es = [] then [] else ", ".toList.intercalate es ++ ", ".toList) ++ e =
        ", ".toList.intercalate (es ++ [e]) := fun e => by
      by_cases hes : es = []
      · simp [hes]
      · rw [if_neg hes, intercalate_append_singleton _ hes]
    simp only [str1Body, if_pos hpos, bitmap2rangestr_eq, Option.bind_some,
      snprintf_of_length_lt (length_coreText_lt hs hc (length_fmtRanges_runs_le _))]
    rw [← Option.bind_assoc, str1Enc_bind_comma, fit_bind_strncat_map, hjoin, str1Enc,
      List.isEmpty_eq_false_iff.mpr (List.concat_ne_nil _ es)]
  · simp [str1Body, hpos]

/-- **`str1` is the listed cores' text while it fits**, and the loops write
past `str1` as soon as it does not. -/
theorem str1Loop_eq (map : ℕ → ℕ → BitVec 32) {nbsockets nbcores : ℕ} (hs : nbsockets ≤ 2 ^ 31)
    (hc : nbcores ≤ 2 ^ 31) : str1Loop map nbsockets nbcores = fit len (str1Text map nbsockets nbcores) := by
  -- the inner loop over the cores of socket `s`, then the outer one over the sockets
  have hinner : ∀ s < nbsockets, ∀ es, (str1Enc es).bind (fun st => (List.range nbcores).foldlM (str1Body map s) st) =
      str1Enc (es ++ (List.range nbcores).flatMap (coreEntries map s)) := fun s hsn es => by
    simp only [← Machine.runSteps_eq_foldlM]
    exact Machine.bind_runSteps_abs _ str1Enc (coreEntries map s) _ (fun es c hc' =>
      str1Enc_bind_str1Body map (by omega) (by have := List.mem_range.mp hc'; omega) es) es
  have houter := Machine.bind_runSteps_abs (fun st s => (List.range nbcores).foldlM (str1Body map s) st)
    str1Enc (fun s => (List.range nbcores).flatMap (coreEntries map s)) (List.range nbsockets)
    (fun es s hs' => hinner s (List.mem_range.mp hs') es) []
  have hinit : str1Enc [] = some ⟨[], true⟩ := rfl
  simp only [Machine.runSteps_eq_foldlM, List.nil_append, hinit, Option.bind_some] at houter
  rw [str1Loop, houter, str1Enc, Option.map_map]
  simp [str1Text, Function.comp_def]

/-! ### `str2` -/

/-- What `str2` shows of a PU: `B` if it is in the binding, `.` if not. -/
def puMark (cpuset : ℕ → Bool) (osIndex : ℕ) : List Char := if cpuset osIndex then "B".toList else ".".toList

/-- The loop over the PUs of a core. -/
def puLoop (cpuset : ℕ → Bool) (str2 : List Char) (pus : List ℕ) : Option (List Char) :=
  pus.foldlM (fun str2 osIndex => strncat len str2 (puMark cpuset osIndex) (len - str2.length)) str2

/-- The loop over the cores of a socket, with `core_index`: a `/` before
every core but the first. -/
def coreLoop (cpuset : ℕ → Bool) (str2 : List Char) (cores : List (List ℕ)) : Option (List Char × ℕ) :=
  cores.foldlM (fun st pus =>
    (if 0 < st.2 then strncat len st.1 "/".toList (len - st.1.length) else some st.1).bind fun str2 =>
      (puLoop cpuset str2 pus).map fun str2 => (str2, st.2 + 1)) (str2, 0)

/-- The loop over the sockets, from `str2[0] = '\0'`: each in `[` and `]`. -/
def str2Loop (cpuset : ℕ → Bool) (sockets : List (List (List ℕ))) : Option (List Char) :=
  sockets.foldlM (fun str2 cores =>
    (strncat len str2 "[".toList (len - str2.length)).bind fun str2 =>
      (coreLoop cpuset str2 cores).bind fun st => strncat len st.1 "]".toList (len - st.1.length)) []

/-- The text of a socket in `str2`. -/
def socketText (cpuset : ℕ → Bool) (cores : List (List ℕ)) : List Char :=
  "[".toList ++ "/".toList.intercalate (cores.map fun pus => pus.flatMap (puMark cpuset)) ++ "]".toList

/-- The text `str2` is meant to hold. -/
def str2Text (cpuset : ℕ → Bool) (sockets : List (List (List ℕ))) : List Char :=
  sockets.flatMap (socketText cpuset)

theorem fit_bind_puLoop (cpuset : ℕ → Bool) (t : List Char) (pus : List ℕ) :
    (fit len t).bind (fun str2 => puLoop cpuset str2 pus) = fit len (t ++ pus.flatMap (puMark cpuset)) := by
  have h := Machine.bind_runSteps_abs (fun str2 osIndex => strncat len str2 (puMark cpuset osIndex) (len - str2.length))
    (fun es => fit len (t ++ es)) (puMark cpuset) pus (fun es o _ => by rw [fit_bind_strncat, List.append_assoc]) []
  simpa [← Machine.runSteps_eq_foldlM, puLoop] using h

theorem fit_bind_puLoop_map {β : Type*} (cpuset : ℕ → Bool) (t : List Char) (pus : List ℕ) (f : List Char → β) :
    (fit len t).bind (fun str2 => (puLoop cpuset str2 pus).map f) = (fit len (t ++ pus.flatMap (puMark cpuset))).map f := by
  rw [← fit_bind_puLoop, Option.map_bind]
  rfl

theorem fit_bind_coreLoop (cpuset : ℕ → Bool) (t : List Char) (cores : List (List ℕ)) :
    (fit len t).bind (fun str2 => coreLoop cpuset str2 cores) =
      (fit len (t ++ "/".toList.intercalate (cores.map fun pus => pus.flatMap (puMark cpuset)))).map
        fun str2 => (str2, cores.length) := by
  -- the state after the cores `cs`: their text after `t`, and `core_index`
  let enc : List (List Char) → Option (List Char × ℕ) := fun cs =>
    (fit len (t ++ "/".toList.intercalate cs)).map fun str2 => (str2, cs.length)
  have hstep : ∀ (cs : List (List Char)) (pus : List ℕ), (enc cs).bind (fun st =>
      (if 0 < st.2 then strncat len st.1 "/".toList (len - st.1.length) else some st.1).bind fun str2 =>
        (puLoop cpuset str2 pus).map fun str2 => (str2, st.2 + 1)) = enc (cs ++ [pus.flatMap (puMark cpuset)]) := by
    intro cs pus
    simp only [enc, Option.bind_map, Function.comp_def]
    by_cases hcs : cs = []
    · -- the first core: no `/`
      subst hcs
      simp only [List.length_nil, lt_self_iff_false, ↓reduceIte, Option.bind_some]
      rw [fit_bind_puLoop_map]
      simp
    · have hpos : 0 < cs.length := List.length_pos_iff.mpr hcs
      simp only [hpos, ↓reduceIte]
      rw [← Option.bind_assoc, fit_bind_strncat, fit_bind_puLoop_map, intercalate_append_singleton _ hcs]
      simp [List.append_assoc]
  have h := Machine.bind_runSteps_abs _ enc (fun pus => [pus.flatMap (puMark cpuset)]) cores
    (fun cs pus _ => hstep cs pus) []
  simp only [List.nil_append, Machine.runSteps_eq_foldlM] at h
  have henc : enc [] = (fit len t).map fun str2 => (str2, 0) := by simp [enc]
  rw [henc, Option.bind_map] at h
  simpa [enc, coreLoop, Function.comp_def, ← List.map_eq_flatMap] using h

/-- **`str2` is the sockets' text while it fits**, and the loops write past
`str2` as soon as it does not. -/
theorem str2Loop_eq (cpuset : ℕ → Bool) (sockets : List (List (List ℕ))) :
    str2Loop cpuset sockets = fit len (str2Text cpuset sockets) := by
  have hstep : ∀ (es : List Char) (cores : List (List ℕ)), (fit len es).bind (fun str2 =>
      (strncat len str2 "[".toList (len - str2.length)).bind fun str2 =>
        (coreLoop cpuset str2 cores).bind fun st => strncat len st.1 "]".toList (len - st.1.length)) =
      fit len (es ++ socketText cpuset cores) := by
    intro es cores
    rw [← Option.bind_assoc, fit_bind_strncat, ← Option.bind_assoc, fit_bind_coreLoop, Option.bind_map]
    simp only [Function.comp_def]
    rw [fit_bind_strncat, socketText]
    simp [List.append_assoc]
  have h := Machine.bind_runSteps_abs _ (fit len) (socketText cpuset) sockets (fun es cores _ => hstep es cores) []
  simp only [List.nil_append, Machine.runSteps_eq_foldlM, fit_of_length_lt (show ([] : List Char).length < len by decide),
    Option.bind_some] at h
  exact h

/-! ### `printme` -/

/-- What hwloc tells `printme`. -/
structure Topology where
  /-- `hwloc_get_cpubind` succeeded -/
  bound : Bool
  nbsockets : ℕ
  nbcores : ℕ
  /-- the PUs of the binding, in order -/
  pus : List Pu
  /-- the sockets in order, each with its cores, each with its PUs' `os_index` -/
  sockets : List (List (List ℕ))
  /-- the binding, by `os_index` -/
  cpuset : ℕ → Bool

/-- What `printme (instr)` prints on stdout; `none` when a write leaves its
buffer. -/
def printme (hostname instr : List Char) (t : Topology) : Option (List Char) :=
  if t.bound then
    (str1Loop (dataOf t.pus) t.nbsockets t.nbcores).bind fun _ =>
      (str2Loop t.cpuset t.sockets).map fun str2 =>
        hostname ++ ": ".toList ++ instr ++ " ".toList ++ str2 ++ "\n".toList
  else some "Not Bound\n".toList

end Printme
end QueueRate
