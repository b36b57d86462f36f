import Mathlib.Data.List.Basic
import Mathlib.Tactic.Ring

/-!
# Scanning for runs of symbols

A code writes each symbol as a list of units, and reads what stands at the start of a list of units:
a symbol or none, and how many units that takes. A code is synchronised where reading never steps
over the start of a symbol. Reading on from any place, wrong as it may be at first, then comes to
every place where a symbol was written.

`Code.scan` reads a list of units from its start and collects the maximal runs of symbols that are
kept. Places are counted in strides, for codes whose symbols take a multiple of several units.
-/

namespace Foundations

/-- A way of writing symbols as units, and of reading them back. -/
structure Code (β α : Type*) where
  /-- The places where symbols stand are this far apart. -/
  stride : ℕ
  encode : α → List β
  /-- What stands at the start, and the units that it takes. -/
  next : List β → Option α × ℕ

/-- Symbols read one after another, and where the first stands. -/
structure Run (α : Type*) where
  start : ℕ
  symbols : List α

namespace Run

variable {α : Type*}

/-- One more symbol is read. -/
def push (run : Run α) (offset : ℕ) (symbol : α) : Run α :=
  ⟨if run.symbols = [] then offset else run.start, run.symbols ++ [symbol]⟩

/-- A run that ends counts where it is long enough. -/
def close (least : ℕ) (run : Run α) : List (Run α) :=
  if least ≤ run.symbols.length then [run] else []

theorem mem_close {least : ℕ} {run other : Run α} :
    other ∈ run.close least ↔ other = run ∧ least ≤ run.symbols.length := by
  rw [close]
  split
  case isTrue hleast => simp [hleast]
  case isFalse hleast => simp [hleast]

end Run

namespace Code

variable {β α : Type*} (code : Code β α)

/-- A text, written. -/
def encodeAll (text : List α) : List β := text.flatMap code.encode

/-- The runs of symbols that are kept, at least `least` of them, read from `offset` on. -/
def scan (keeps : α → Bool) (least : ℕ) : ℕ → ℕ → List β → Run α → List (Run α)
  | 0, _, _, run => run.close least
  | fuel + 1, offset, units, run =>
    if units.length < code.stride then run.close least
    else
      let found := code.next units
      match found.1.filter keeps with
      | some symbol =>
        scan keeps least fuel (offset + found.2) (units.drop found.2) (run.push offset symbol)
      | none =>
        run.close least ++
          scan keeps least fuel (offset + found.2) (units.drop found.2) ⟨offset + found.2, []⟩

/-- What reading is relied on for. -/
structure Lawful : Prop where
  stride_pos : 0 < code.stride
  stride_le : ∀ symbol, code.stride ≤ (code.encode symbol).length
  width_pos : ∀ {units}, code.stride ≤ units.length → 0 < (code.next units).2
  width_le : ∀ {units}, code.stride ≤ units.length → (code.next units).2 ≤ units.length
  width_dvd : ∀ {units}, code.stride ≤ units.length → code.stride ∣ (code.next units).2
  next_encode : ∀ symbol rest,
    code.next (code.encode symbol ++ rest) = (some symbol, (code.encode symbol).length)
  of_next : ∀ {units symbol width}, code.stride ≤ units.length →
    code.next units = (some symbol, width) →
      ∃ rest, units = code.encode symbol ++ rest ∧ width = (code.encode symbol).length
  /-- Reading never steps over the start of a symbol. -/
  synchronised : ∀ {before symbol rest}, before ≠ [] → code.stride ∣ before.length →
    (code.next (before ++ (code.encode symbol ++ rest))).2 ≤ before.length

variable {code}

@[simp] theorem encodeAll_nil : code.encodeAll [] = [] := rfl

@[simp] theorem encodeAll_cons (symbol : α) (text : List α) :
    code.encodeAll (symbol :: text) = code.encode symbol ++ code.encodeAll text := rfl

@[simp] theorem encodeAll_append (text text' : List α) :
    code.encodeAll (text ++ text') = code.encodeAll text ++ code.encodeAll text' :=
  List.flatMap_append

/-- The units read so far end with the run, at the place where it starts. -/
def Ends (code : Code β α) (before : List β) (run : Run α) : Prop :=
  run.symbols ≠ [] → ∃ front, before = front ++ code.encodeAll run.symbols ∧
    front.length = run.start

theorem ends_nil (before : List β) (start : ℕ) : code.Ends before ⟨start, []⟩ :=
  fun h => absurd rfl h

/-- A run that is pushed on ends where it did, with the symbol. -/
theorem Ends.push {before : List β} {run : Run α} (h : code.Ends before run) (symbol : α) :
    code.Ends (before ++ code.encode symbol) (run.push before.length symbol) := by
  intro _
  by_cases hempty : run.symbols = []
  · exact ⟨before, by simp [Run.push, hempty], by simp [Run.push, hempty]⟩
  · obtain ⟨front, hbefore, hstart⟩ := h hempty
    refine ⟨front, ?_, by simp [Run.push, hempty, hstart]⟩
    simp [Run.push, hbefore, encodeAll]

section Scan

variable {keeps : α → Bool} {least fuel offset width : ℕ} {units : List β} {run : Run α}

theorem scan_of_lt (hlength : units.length < code.stride) :
    code.scan keeps least fuel offset units run = run.close least := by
  cases fuel with
  | zero => rfl
  | succ fuel => rw [scan, if_pos hlength]

/-- A symbol that is kept is read. -/
theorem scan_keep {symbol : α} (hlength : code.stride ≤ units.length)
    (hnext : code.next units = (some symbol, width)) (hkeeps : keeps symbol = true) :
    code.scan keeps least (fuel + 1) offset units run =
      code.scan keeps least fuel (offset + width) (units.drop width) (run.push offset symbol) := by
  have hfound : (some symbol).filter keeps = some symbol := by
    rw [Option.filter_some, if_pos hkeeps]
  simp only [scan, if_neg (Nat.not_lt.mpr hlength), hnext, hfound]

/-- Anything else ends the run. -/
theorem scan_skip {found : Option α} (hlength : code.stride ≤ units.length)
    (hnext : code.next units = (found, width)) (hfound : found.filter keeps = none) :
    code.scan keeps least (fuel + 1) offset units run =
      run.close least ++
        code.scan keeps least fuel (offset + width) (units.drop width) ⟨offset + width, []⟩ := by
  simp only [scan, if_neg (Nat.not_lt.mpr hlength), hnext, hfound]

/-- A step of the scan, whichever it is. -/
theorem scan_step (keeps : α → Bool) (least fuel : ℕ) (hcode : code.Lawful) {before : List β} (hlength : code.stride ≤ units.length)
    (hrun : code.Ends before run) :
    ∃ width next, (code.next units).2 = width ∧
      (before ++ units.take width).length = before.length + width ∧
      code.Ends (before ++ units.take width) next ∧
      (∀ found ∈ code.scan keeps least fuel (before.length + width) (units.drop width) next,
        found ∈ code.scan keeps least (fuel + 1) before.length units run) ∧
      (∀ found ∈ code.scan keeps least (fuel + 1) before.length units run,
        found ∈ run.close least ∨
          found ∈ code.scan keeps least fuel (before.length + width) (units.drop width) next) := by
  rcases hnext : code.next units with ⟨found, width⟩
  have hplace : (before ++ units.take width).length = before.length + width := by
    have hwidth := hcode.width_le hlength
    rw [hnext] at hwidth
    rw [List.length_append, List.length_take_of_le hwidth]
  refine ⟨width, ?_⟩
  cases hkept : found.filter keeps with
  | some symbol =>
    obtain ⟨hfound, hkeeps⟩ := Option.filter_eq_some_iff.mp hkept
    rw [hfound] at hnext
    obtain ⟨rest, hunits, hwidth⟩ := hcode.of_next hlength hnext
    have htake : units.take width = code.encode symbol := by
      rw [hunits, hwidth, List.take_left]
    rw [scan_keep hlength hnext hkeeps, htake]
    exact ⟨_, rfl, htake ▸ hplace, hrun.push symbol, fun _ h => h, fun _ h => .inr h⟩
  | none =>
    rw [scan_skip hlength hnext hkept]
    exact ⟨_, rfl, hplace, ends_nil _ _, fun _ h => List.mem_append_right _ h,
      fun _ h => List.mem_append.mp h⟩

/-- A run is written at the place where it starts. -/
theorem Lawful.scan_sound (hcode : code.Lawful) (hleast : 0 < least) {before : List β}
    (hrun : code.Ends before run) {found : Run α}
    (hfound : found ∈ code.scan keeps least fuel before.length units run) :
    ∃ front rest, before ++ units = front ++ (code.encodeAll found.symbols ++ rest) ∧
      front.length = found.start := by
  have hclosed : ∀ {before units run}, code.Ends before run → found ∈ run.close least →
      ∃ front rest, before ++ units = front ++ (code.encodeAll found.symbols ++ rest) ∧
        front.length = found.start := by
    intro before units run hrun hclose
    obtain ⟨rfl, hlong⟩ := Run.mem_close.mp hclose
    obtain ⟨front, hbefore, hstart⟩ := hrun (List.length_pos_iff.mp (hleast.trans_le hlong))
    exact ⟨front, units, by rw [hbefore, List.append_assoc], hstart⟩
  induction fuel generalizing before units run with
  | zero => exact hclosed hrun hfound
  | succ fuel ih =>
    by_cases hlength : units.length < code.stride
    · rw [scan_of_lt hlength] at hfound
      exact hclosed hrun hfound
    · rw [Nat.not_lt] at hlength
      obtain ⟨width, next, -, hplace, hends, -, hsplit⟩ := scan_step keeps least fuel hcode hlength hrun
      obtain hclose | hrest := hsplit found hfound
      · exact hclosed hrun hclose
      · rw [← hplace] at hrest
        obtain ⟨front, rest, hwhole, hstart⟩ := ih hends hrest
        rw [List.append_assoc, List.take_append_drop] at hwhole
        exact ⟨front, rest, hwhole, hstart⟩

/-- A run that is long enough is found, with what is read on. -/
theorem scan_continues (code : Code β α) (keeps : α → Bool) (fuel offset : ℕ) (units : List β)
    (hlong : least ≤ run.symbols.length) :
    ∃ found ∈ code.scan keeps least fuel offset units run, ∃ post,
      found.symbols = run.symbols ++ post ∧ (run.symbols ≠ [] → found.start = run.start) := by
  have hclosed : ∀ {run : Run α}, least ≤ run.symbols.length → ∃ found ∈ run.close least, ∃ post,
      found.symbols = run.symbols ++ post ∧ (run.symbols ≠ [] → found.start = run.start) :=
    fun {run} hlong => ⟨run, Run.mem_close.mpr ⟨rfl, hlong⟩, [], by simp, fun _ => rfl⟩
  induction fuel generalizing offset units run with
  | zero => exact hclosed hlong
  | succ fuel ih =>
    by_cases hlength : units.length < code.stride
    · rw [scan_of_lt hlength]
      exact hclosed hlong
    · rw [Nat.not_lt] at hlength
      rcases hnext : code.next units with ⟨found, width⟩
      cases hkept : found.filter keeps with
      | some symbol =>
        obtain ⟨rfl, hkeeps⟩ := Option.filter_eq_some_iff.mp hkept
        rw [scan_keep hlength hnext hkeeps]
        have hmore : least ≤ (run.push offset symbol).symbols.length := by
          rw [Run.push, List.length_append]
          exact hlong.trans (Nat.le_add_right _ _)
        obtain ⟨found, hfound, post, hsymbols, hstart⟩ :=
          ih (offset + width) (units.drop width) hmore
        refine ⟨found, hfound, symbol :: post, by simpa [Run.push] using hsymbols, fun hrun => ?_⟩
        rw [hstart (by simp [Run.push]), Run.push, if_neg hrun]
      | none =>
        rw [scan_skip hlength hnext hkept]
        obtain ⟨found, hfound, hrest⟩ := hclosed hlong
        exact ⟨found, List.mem_append_left _ hfound, hrest⟩

/-- A text that is kept is read into the run that it continues. -/
theorem scan_encodeAll (least : ℕ) (hcode : code.Lawful) {text : List α} (rest : List β) {before : List β}
    (hkeeps : ∀ symbol ∈ text, keeps symbol = true) (hrun : code.Ends before run)
    (hfuel : text.length ≤ fuel) :
    ∃ next, code.Ends (before ++ code.encodeAll text) next ∧
      next.symbols = run.symbols ++ text ∧
      code.scan keeps least fuel before.length (code.encodeAll text ++ rest) run =
        code.scan keeps least (fuel - text.length) (before ++ code.encodeAll text).length rest next := by
  induction text generalizing fuel before run with
  | nil => exact ⟨run, by simpa using hrun, by simp, by simp⟩
  | cons symbol text ih =>
    obtain ⟨fuel, rfl⟩ : ∃ less, fuel = less + 1 :=
      ⟨fuel - 1, by rw [List.length_cons] at hfuel; omega⟩
    rw [List.forall_mem_cons] at hkeeps
    obtain ⟨next, hends, hsymbols, hscan⟩ := ih hkeeps.2 (hrun.push symbol)
      (Nat.le_of_succ_le_succ hfuel)
    have hlength : code.stride ≤ (code.encode symbol ++ (code.encodeAll text ++ rest)).length := by
      rw [List.length_append]
      exact Nat.le_add_right_of_le (hcode.stride_le symbol)
    refine ⟨next, by simpa using hends, by simpa [Run.push] using hsymbols, ?_⟩
    rw [encodeAll_cons, List.append_assoc, scan_keep hlength (hcode.next_encode _ _) hkeeps.1,
      List.drop_left, List.length_cons, Nat.add_sub_add_right, ← List.append_assoc, ← hscan,
      List.length_append]

/-- The scan comes to every place where a text is written. -/
theorem scan_reaches (keeps : α → Bool) (least : ℕ) (hcode : code.Lawful) {text : List α} (htext : text ≠ [])
    {done before rest : List β} (hrun : code.Ends done run)
    (haligned : code.stride ∣ before.length)
    (hfuel : (before ++ (code.encodeAll text ++ rest)).length ≤ fuel) :
    ∃ fuel' next, (code.encodeAll text ++ rest).length ≤ fuel' ∧
      code.Ends (done ++ before) next ∧
      ∀ found ∈ code.scan keeps least fuel' (done ++ before).length (code.encodeAll text ++ rest) next,
        found ∈ code.scan keeps least fuel done.length
          (before ++ (code.encodeAll text ++ rest)) run := by
  obtain ⟨symbol, more, rfl⟩ := List.exists_cons_of_ne_nil htext
  induction fuel generalizing done before run with
  | zero =>
    obtain rfl : before = [] := by
      rw [List.length_append] at hfuel
      exact List.eq_nil_of_length_eq_zero (by omega)
    exact ⟨0, run, by simpa using hfuel, by simpa using hrun, fun found h => by simpa using h⟩
  | succ fuel ih =>
    by_cases hbefore : before = []
    · subst hbefore
      exact ⟨fuel + 1, run, hfuel, by simpa using hrun, fun found h => by simpa using h⟩
    · have hlength : code.stride ≤
          (before ++ (code.encodeAll (symbol :: more) ++ rest)).length := by
        rw [List.length_append, List.length_append, encodeAll_cons, List.length_append]
        have := hcode.stride_le symbol
        omega
      obtain ⟨width, next, hwidth, hplace, hends, hmem, -⟩ :=
        scan_step keeps least fuel hcode hlength hrun
      have hle : width ≤ before.length := by
        rw [← hwidth, encodeAll_cons, List.append_assoc]
        exact hcode.synchronised hbefore haligned
      have hpos : 0 < width := hwidth ▸ hcode.width_pos hlength
      rw [List.take_append_of_le_length hle] at hplace hends
      rw [List.drop_append_of_le_length hle] at hmem
      have hdvd : code.stride ∣ (before.drop width).length := by
        rw [List.length_drop]
        exact Nat.dvd_sub haligned (hwidth ▸ hcode.width_dvd hlength)
      obtain ⟨fuel', last, hfuel', hlast, hfound⟩ := ih hends hdvd (by
        rw [List.length_append, List.length_drop]
        rw [List.length_append] at hfuel
        omega)
      rw [List.append_assoc, List.take_append_drop] at hlast hfound
      rw [hplace] at hfound
      exact ⟨fuel', last, hfuel', hlast, fun found h => hmem found (hfound found h)⟩

theorem Lawful.length_le_encodeAll (hcode : code.Lawful) (text : List α) :
    text.length ≤ (code.encodeAll text).length := by
  induction text with
  | nil => exact Nat.zero_le _
  | cons symbol text ih =>
    rw [encodeAll_cons, List.length_append, List.length_cons]
    have := hcode.stride_le symbol
    have := hcode.stride_pos
    omega

/-- A text written at a place that is aligned is within a run, at its place. -/
theorem Lawful.scan_complete (hcode : code.Lawful) (hleast : 0 < least) {text : List α}
    (hlong : least ≤ text.length) (hkeeps : ∀ symbol ∈ text, keeps symbol = true)
    {done before rest : List β} (hrun : code.Ends done run)
    (haligned : code.stride ∣ before.length)
    (hfuel : (before ++ (code.encodeAll text ++ rest)).length ≤ fuel) :
    ∃ found ∈ code.scan keeps least fuel done.length (before ++ (code.encodeAll text ++ rest)) run,
      ∃ pre post, found.symbols = pre ++ text ++ post ∧
        found.start + (code.encodeAll pre).length = (done ++ before).length := by
  have htext : text ≠ [] := List.length_pos_iff.mp (hleast.trans_le hlong)
  obtain ⟨fuel', next, hfuel', hnext, hmem⟩ :=
    scan_reaches keeps least hcode htext hrun haligned hfuel
  have hlength := hcode.length_le_encodeAll text
  have hshort : text.length ≤ fuel' := by
    rw [List.length_append] at hfuel'
    omega
  obtain ⟨last, hlast, hsymbols, hscan⟩ := scan_encodeAll least hcode rest hkeeps hnext hshort
  have hlongLast : least ≤ last.symbols.length := by
    rw [hsymbols, List.length_append]
    exact hlong.trans (Nat.le_add_left _ _)
  have hlastNe : last.symbols ≠ [] := List.length_pos_iff.mp (hleast.trans_le hlongLast)
  obtain ⟨found, hfound, post, hpost, hstart⟩ := scan_continues code keeps (fuel' - text.length)
    (done ++ before ++ code.encodeAll text).length rest hlongLast
  rw [← hscan] at hfound
  refine ⟨found, hmem found hfound, next.symbols, post, by rw [hpost, hsymbols], ?_⟩
  obtain ⟨front, hwhole, hfront⟩ := hlast hlastNe
  have hcount := congrArg List.length hwhole
  rw [hsymbols, encodeAll_append] at hcount
  rw [hstart hlastNe, ← hfront]
  simp only [List.length_append] at hcount ⊢
  omega

/-- Fuel for every unit is enough, and more changes nothing. -/
theorem Lawful.scan_fuel (hcode : code.Lawful) {fuel' : ℕ} (hfuel : units.length ≤ fuel)
    (hfuel' : units.length ≤ fuel') :
    code.scan keeps least fuel offset units run = code.scan keeps least fuel' offset units run := by
  induction fuel generalizing fuel' offset units run with
  | zero =>
    have hlength : units.length < code.stride := Nat.lt_of_le_of_lt hfuel hcode.stride_pos
    rw [scan_of_lt hlength, scan_of_lt hlength]
  | succ fuel ih =>
    by_cases hlength : units.length < code.stride
    · rw [scan_of_lt hlength, scan_of_lt hlength]
    · rw [Nat.not_lt] at hlength
      obtain ⟨fuel', rfl⟩ : ∃ less, fuel' = less + 1 :=
        ⟨fuel' - 1, by have := hcode.stride_pos; omega⟩
      have hpos := hcode.width_pos hlength
      rcases hnext : code.next units with ⟨found, width⟩
      rw [hnext] at hpos
      have hrest : (units.drop width).length ≤ fuel := by
        rw [List.length_drop]
        omega
      have hrest' : (units.drop width).length ≤ fuel' := by
        rw [List.length_drop]
        omega
      cases hkept : found.filter keeps with
      | some symbol =>
        obtain ⟨rfl, hkeeps⟩ := Option.filter_eq_some_iff.mp hkept
        rw [scan_keep hlength hnext hkeeps, scan_keep hlength hnext hkeeps, ih hrest hrest']
      | none =>
        rw [scan_skip hlength hnext hkept, scan_skip hlength hnext hkept, ih hrest hrest']

/-- A text that is written within another is within it. -/
theorem Lawful.infix_of_encodeAll (hcode : code.Lawful) {text part : List α} {before after : List β}
    (hpart : part ≠ []) (haligned : code.stride ∣ before.length)
    (htext : code.encodeAll text = before ++ (code.encodeAll part ++ after)) :
    ∃ pre post, text = pre ++ part ++ post ∧ (code.encodeAll pre).length = before.length := by
  have hnil : code.Ends [] ⟨0, []⟩ := ends_nil [] 0
  -- read with nothing left out, the whole text is one run
  obtain ⟨last, hlast, hsymbols, hscan⟩ : ∃ last, code.Ends ([] ++ code.encodeAll text) last ∧
      last.symbols = [] ++ text ∧
      code.scan (fun _ => true) 1 (code.encodeAll text).length 0 (code.encodeAll text ++ []) ⟨0, []⟩ =
        code.scan (fun _ => true) 1 ((code.encodeAll text).length - text.length)
          ([] ++ code.encodeAll text).length [] last :=
    scan_encodeAll 1 hcode [] (fun _ _ => rfl) hnil (hcode.length_le_encodeAll text)
  have hkeeps : ∀ symbol ∈ part, (fun _ : α => true) symbol = true := fun _ _ => rfl
  obtain ⟨found, hfound, pre, post, hpre, hstart⟩ :=
    hcode.scan_complete Nat.one_pos (List.length_pos_iff.mpr hpart) hkeeps hnil haligned
      (congrArg List.length htext).ge
  rw [List.append_nil] at hscan
  have hend : ([] : List β).length < code.stride := hcode.stride_pos
  rw [← htext, List.length_nil, hscan, scan_of_lt hend] at hfound
  obtain ⟨rfl, hlong⟩ := Run.mem_close.mp hfound
  obtain ⟨front, hwhole, hfront⟩ := hlast (List.length_pos_iff.mp hlong)
  rw [List.nil_append] at hsymbols hwhole hstart
  have hempty := congrArg List.length hwhole
  rw [hsymbols, List.length_append] at hempty
  refine ⟨pre, post, by rw [← hsymbols, hpre], ?_⟩
  omega

end Scan

end Code

end Foundations
