import ScriptBackend.Image.Listing
import ScriptBackend.Proofs.FirstOccurrences
import ScriptBackend.Proofs.History
import ScriptBackend.Proofs.PoolLayout
import ScriptBackend.Proofs.Quoted

/-!
# A listing finds the entries of a pool

A listing of a pool knows nothing of its entries: it looks at zeros only, and lists
what lies between them. In any bytes these are the longest stretches without a
zero. In the bytes of a pool they are the texts of its entries, since every text
is followed by a zero and has none inside; an entry without text leaves no trace.
Each has a line of its own, from which its offset and its text can be read.
-/

namespace ScriptBackend

open Text (Byte padRight)

namespace Image

/-- A stretch without zeros that an end or a zero bounds on either side. -/
structure MaximalRun (pool : List Byte) (offset : Nat) (run : List Byte) : Prop where
  nonempty : run ≠ []
  noZero : 0 ∉ run
  bounded : ∃ front back, pool = front ++ (run ++ back) ∧ front.length = offset ∧
    (∀ b ∈ front.getLast?, b = 0) ∧ ∀ b ∈ back.head?, b = 0

-- ---------------------------------------------------------------------------
-- Runs, zero by zero
-- ---------------------------------------------------------------------------

theorem takeWhile_noZero {run : List Byte} (h : 0 ∉ run) (rest : List Byte) :
    (run ++ rest).takeWhile (· ≠ 0) = run ++ rest.takeWhile (· ≠ 0) ∧
      (run ++ rest).dropWhile (· ≠ 0) = rest.dropWhile (· ≠ 0) := by
  have hne : ∀ b ∈ run, decide (b ≠ 0) = true := by
    intro b hb
    rw [decide_eq_true_eq]
    rintro rfl
    exact h hb
  exact ⟨List.takeWhile_append_of_pos hne, List.dropWhile_append_of_pos hne⟩

theorem runs_of_noZero {run : List Byte} (h : 0 ∉ run) (hne : run ≠ []) (offset : Nat) :
    runs offset run = [(offset, run)] := by
  obtain ⟨b, rest, rfl⟩ := List.exists_cons_of_ne_nil hne
  obtain ⟨htake, hdrop⟩ := takeWhile_noZero h []
  simp only [List.append_nil, List.takeWhile_nil, List.dropWhile_nil] at htake hdrop
  rw [runs, htake, hdrop]
  simp [runs]

theorem runs_zero (offset : Nat) (rest : List Byte) : runs offset (0 :: rest) = runs (offset + 1) rest := by
  rw [runs]
  simp

theorem runs_append {run : List Byte} (h : 0 ∉ run) (hne : run ≠ []) (offset : Nat) (rest : List Byte) :
    runs offset (run ++ 0 :: rest) = (offset, run) :: runs (offset + run.length + 1) rest := by
  obtain ⟨b, bs, rfl⟩ := List.exists_cons_of_ne_nil hne
  obtain ⟨htake, hdrop⟩ := takeWhile_noZero h (0 :: rest)
  rw [List.cons_append] at htake hdrop ⊢
  rw [runs, htake, hdrop]
  simp

theorem zeros_induction {P : List Byte → Prop} (hlast : ∀ run, 0 ∉ run → P run)
    (hzero : ∀ run rest, 0 ∉ run → P rest → P (run ++ 0 :: rest)) (pool : List Byte) : P pool := by
  by_cases h : 0 ∈ pool
  · obtain ⟨run, rest, hpool, hrun⟩ := List.eq_append_cons_of_mem h
    have hlt : rest.length < pool.length := by
      rw [hpool, List.length_append, List.length_cons]
      omega
    rw [hpool]
    exact hzero run rest hrun (zeros_induction hlast hzero rest)
  · exact hlast pool h
termination_by pool.length

-- ---------------------------------------------------------------------------
-- Maximality
-- ---------------------------------------------------------------------------

theorem front_eq_nil {front : List Byte} (h : 0 ∉ front) (hlast : ∀ b ∈ front.getLast?, b = 0) :
    front = [] := by
  cases hfront : front.getLast? with
  | none => exact List.getLast?_eq_none_iff.mp hfront
  | some b =>
    obtain rfl := hlast b hfront
    exact absurd (List.mem_of_getLast? hfront) h

theorem maximalRun_of_noZero (h : 0 ∉ pool) :
    MaximalRun pool offset run ↔ offset = 0 ∧ run = pool ∧ pool ≠ [] := by
  constructor
  · rintro ⟨hne, -, front, back, rfl, rfl, hfront, hback⟩
    simp only [List.mem_append, not_or] at h
    obtain rfl := front_eq_nil h.1 hfront
    have hend : back = [] := by
      cases back with
      | nil => rfl
      | cons b back =>
        obtain rfl := hback b rfl
        exact absurd List.mem_cons_self h.2.2
    subst hend
    simpa using hne
  · rintro ⟨rfl, rfl, hne⟩
    exact ⟨hne, h, [], [], by simp⟩

theorem maximalRun_append (h : 0 ∉ left) :
    MaximalRun (left ++ 0 :: rest) offset run ↔
      (offset = 0 ∧ run = left ∧ left ≠ []) ∨
        ∃ later, offset = left.length + 1 + later ∧ MaximalRun rest later run := by
  constructor
  · rintro ⟨hne, hrun, front, back, hpool, rfl, hfront, hback⟩
    rcases List.append_eq_append_iff.mp hpool with ⟨inner, rfl, htail⟩ | ⟨inner, rfl, htail⟩
    · -- The run begins behind the zero, or would have it.
      cases inner with
      | nil =>
        obtain ⟨b, bs, rfl⟩ := List.exists_cons_of_ne_nil hne
        simp only [List.nil_append, List.cons_append, List.cons.injEq] at htail
        exact absurd (htail.1 ▸ List.mem_cons_self) hrun
      | cons b inner =>
        simp only [List.cons_append, List.cons.injEq] at htail
        obtain ⟨rfl, rfl⟩ := htail
        refine .inr ⟨inner.length, by simp; omega, hne, hrun, inner, back, rfl, rfl, ?_, hback⟩
        intro b hb
        apply hfront b
        rw [List.getLast?_append, List.getLast?_cons, Option.mem_def.mp hb]
        rfl
    · rw [List.mem_append, not_or] at h
      obtain rfl := front_eq_nil h.1 hfront
      -- The run begins at the front, so it ends with the zero.
      have hsame : run = inner := by
        rcases List.append_eq_append_iff.mp htail with ⟨more, rfl, hmore⟩ | ⟨more, rfl, hmore⟩
        · cases more with
          | nil => simp
          | cons b more =>
            obtain rfl := hback b (by rw [hmore]; rfl)
            exact absurd (List.mem_append_right _ List.mem_cons_self) h.2
        · cases more with
          | nil => simp
          | cons b more =>
            simp only [List.cons_append, List.cons.injEq] at hmore
            exact absurd (hmore.1 ▸ List.mem_append_right _ List.mem_cons_self) hrun
      subst hsame
      exact .inl ⟨rfl, rfl, hne⟩
  · rintro (⟨rfl, rfl, hne⟩ | ⟨_, rfl, hne, hrun, front, back, rfl, rfl, hfront, hback⟩)
    · exact ⟨hne, h, [], 0 :: rest, by simp⟩
    · refine ⟨hne, hrun, left ++ 0 :: front, back, by simp, by simp; omega, ?_, hback⟩
      rw [List.getLast?_append, List.getLast?_cons]
      cases hlast : front.getLast? with
      | none => simp
      | some b => simpa [hlast] using hfront

theorem mem_runs : (offset, run) ∈ runs first pool ↔
    ∃ place, offset = first + place ∧ MaximalRun pool place run := by
  induction pool using zeros_induction generalizing first with
  | hlast pool h =>
    simp only [maximalRun_of_noZero h]
    by_cases hne : pool = []
    · simp [hne, runs]
    · rw [runs_of_noZero h hne]
      simp only [List.mem_singleton, Prod.mk.injEq]
      constructor
      · rintro ⟨rfl, rfl⟩
        exact ⟨0, rfl, rfl, rfl, hne⟩
      · rintro ⟨_, rfl, rfl, rfl, -⟩
        exact ⟨rfl, rfl⟩
  | hzero left rest h ih =>
    simp only [maximalRun_append h]
    by_cases hne : left = []
    · subst hne
      rw [List.nil_append, runs_zero, ih]
      constructor
      · rintro ⟨place, rfl, hrun⟩
        exact ⟨1 + place, by omega, .inr ⟨place, by simp, hrun⟩⟩
      · rintro ⟨_, rfl, ⟨-, -, hne⟩ | ⟨place, rfl, hrun⟩⟩
        · exact absurd rfl hne
        · exact ⟨place, by simp; omega, hrun⟩
    · rw [runs_append h hne, List.mem_cons, ih]
      constructor
      · rintro (heq | ⟨place, rfl, hrun⟩)
        · cases heq
          exact ⟨0, rfl, .inl ⟨rfl, rfl, hne⟩⟩
        · exact ⟨left.length + 1 + place, by omega, .inr ⟨place, rfl, hrun⟩⟩
      · rintro ⟨_, rfl, ⟨rfl, rfl, -⟩ | ⟨place, rfl, hrun⟩⟩
        · exact .inl rfl
        · exact .inr ⟨place, by omega, hrun⟩

theorem runs_apart : (runs first pool).Pairwise fun a b => a.1 + a.2.length < b.1 := by
  induction pool using zeros_induction generalizing first with
  | hlast pool h =>
    by_cases hne : pool = []
    · simp [hne, runs]
    · rw [runs_of_noZero h hne]
      exact List.pairwise_singleton _ _
  | hzero left rest h ih =>
    by_cases hne : left = []
    · rw [hne, List.nil_append, runs_zero]
      exact ih
    · rw [runs_append h hne]
      refine .cons ?_ ih
      rintro ⟨offset, run⟩ hmem
      obtain ⟨place, rfl, -⟩ := mem_runs.mp hmem
      exact Nat.lt_of_lt_of_le (Nat.lt_succ_self _) (Nat.le_add_right _ _)

-- ---------------------------------------------------------------------------
-- The scan ends
-- ---------------------------------------------------------------------------

/-- The scan by positions, one run and the zero behind it at a time, given up if it takes more than
a number of steps. -/
def scanWithin (pool : List Byte) (steps offset : Nat) : Option (List (Nat × List Byte)) :=
  if offset < pool.length then
    match steps with
    | 0 => none
    | steps + 1 =>
      let run := (pool.drop offset).takeWhile (· ≠ 0)
      (scanWithin pool steps (offset + run.length + 1)).map fun later =>
        if run.isEmpty then later else (offset, run) :: later
  else some []

theorem runs_step (pool : List Byte) (h : pool ≠ []) (offset : Nat) :
    let run := pool.takeWhile (· ≠ 0)
    let later := runs (offset + run.length + 1) (pool.drop (run.length + 1))
    runs offset pool = if run.isEmpty then later else (offset, run) :: later := by
  intro run later
  obtain ⟨b, rest, rfl⟩ := List.exists_cons_of_ne_nil h
  have hdrop : ((b :: rest).dropWhile (· ≠ 0)).drop 1 = (b :: rest).drop (run.length + 1) := by
    rw [← Text.drop_length_takeWhile, List.drop_drop]
  rw [runs, hdrop]

theorem scanWithin_eq (h : pool.length ≤ offset + steps) :
    scanWithin pool steps offset = some (runs offset (pool.drop offset)) := by
  induction steps generalizing offset with
  | zero =>
    rw [scanWithin, if_neg (by omega), List.drop_eq_nil_of_le (by omega), runs]
  | succ steps ih =>
    rw [scanWithin]
    split
    · rename_i hlt
      have hne : pool.drop offset ≠ [] := by
        rw [ne_eq, List.drop_eq_nil_iff]
        omega
      have hlater (n : Nat) : scanWithin pool steps (offset + (n + 1)) =
          some (runs (offset + (n + 1)) (pool.drop (offset + (n + 1)))) := ih (by omega)
      simp only [runs_step _ hne, List.drop_drop, Nat.add_assoc, hlater, Option.map_some]
    · rw [List.drop_eq_nil_of_le (by omega), runs]

-- ---------------------------------------------------------------------------
-- The bytes of a pool
-- ---------------------------------------------------------------------------

open StringPool (Entry Request LaidOut Sound)

theorem runs_replicate (n offset : Nat) (rest : List Byte) :
    runs offset (List.replicate n 0 ++ rest) = runs (offset + n) rest := by
  induction n generalizing offset with
  | zero => rfl
  | succ n ih =>
    rw [List.replicate_succ, List.cons_append, runs_zero, ih, Nat.add_assoc, Nat.add_comm 1 n]

theorem runs_cells {e : Entry} (h : '\x00' ∉ e.text.toList) (offset : Nat) (rest : List Byte) :
    runs offset (e.cells ++ rest) =
      (if e.text = "" then [] else [(offset, Text.bytes e.text)]) ++ runs (offset + e.room) rest := by
  have hroom := e.size_lt_room
  obtain ⟨n, hn⟩ : ∃ n, e.room - Text.size e.text = n + 1 := ⟨e.room - Text.size e.text - 1, by omega⟩
  by_cases hempty : e.text = ""
  · have hbytes : Text.bytes e.text = [] := by rw [hempty]; rfl
    rw [Entry.cells, hbytes, List.nil_append, runs_replicate, if_pos hempty, List.nil_append]
    simp [hempty, Text.size]
  · have hbytes : Text.bytes e.text ≠ [] := by
      rw [← List.length_pos_iff, Text.length_bytes]
      exact Nat.pos_of_ne_zero (by simpa [Text.size] using hempty)
    rw [Entry.cells, hn, List.replicate_succ, List.append_assoc, List.cons_append,
      runs_append (Text.zero_not_mem_bytes h) hbytes, runs_replicate, if_neg hempty,
      Text.length_bytes]
    simp only [List.cons_append, List.nil_append, List.cons.injEq, true_and]
    congr 1
    omega

theorem runs_entries {es : List Entry} (h : LaidOut start es stop)
    (hnul : ∀ e ∈ es, '\x00' ∉ e.text.toList)
    (hfits : start.toNat + (es.flatMap Entry.cells).length < 0x100000000) :
    runs start.toNat (es.flatMap Entry.cells) =
      (es.filter (·.text ≠ "")).map fun e => (e.start.toNat, Text.bytes e.text) := by
  induction es generalizing start with
  | nil => simp [runs]
  | cons e es ih =>
    obtain ⟨rfl, hsize, hes⟩ := h
    obtain ⟨he, hnul⟩ := List.forall_mem_cons.mp hnul
    simp only [List.flatMap_cons, List.length_append, Entry.length_cells] at hfits ⊢
    have hnext : (e.start + e.size).toNat = e.start.toNat + e.room := by
      rw [UInt32.toNat_add, hsize, StringPool.toNat_reserved (by omega)]
      omega
    have hlater := ih hes hnul (by omega)
    rw [runs_cells he, ← hnext, hlater]
    by_cases hempty : e.text = ""
    · simp [hempty]
    · simp [hempty]

theorem poolTexts_bytes {p : StringPool} (hp : Sound p) (hfits : p.extent < 0x100000000) :
    poolTexts p.bytes = (p.entries.toList.filter (·.text ≠ "")).map fun e => (e.start.toNat, e.text) := by
  have hruns := runs_entries hp.laidOut hp.noNul (by simpa [StringPool.extent] using hfits)
  rw [UInt32.toNat_zero] at hruns
  rw [poolTexts, hp.bytes_eq hfits, hruns, List.map_map]
  apply List.map_congr_left
  intro e _
  simp [Text.ofBytesLossy]

end Image

namespace StringPool

-- ---------------------------------------------------------------------------
-- What interning answered
-- ---------------------------------------------------------------------------

structure Call where
  text : String
  offset : UInt32
  deriving DecidableEq

def noteCall (p : StringPool) (request : Request) : StringPool × Option (List Call) :=
  match request with
  | .intern text caseSensitive tagged => note text (p.intern text caseSensitive tagged)
  | .internInt n => note (toString n) (p.internInt n)
  | .internFloat x => note (Decimal.general x) (p.internFloat x)
  | .reset => (empty, none)
where
  note (text : String) (answer : UInt32 × StringPool) : StringPool × Option (List Call) :=
    (answer.2, some [⟨cut text, answer.1⟩])

def firstCalls (calls : List Call) : List Call := calls.eraseDupsBy fun a b => a.offset == b.offset

/-- As long as offsets do not wrap, an entry was made by the first call that got its offset. -/
structure Kept (h : History StringPool Call) : Prop where
  sound : h.state.Sound
  entries : h.state.extent < 0x100000000 →
    h.state.entries.toList.map (fun e => (⟨e.text, e.start⟩ : Call)) = firstCalls h.log

theorem kept_empty : Kept (.fresh empty) := ⟨sound_empty, fun _ => rfl⟩

theorem extent_le_intern (hp : Sound p) (text : String) (caseSensitive tagged : Bool) :
    p.extent ≤ (p.intern text caseSensitive tagged).2.extent := by
  obtain ⟨later, hlater⟩ := hp.entries_prefix text caseSensitive tagged
  rw [extent, extent, ← hlater, List.flatMap_append, List.length_append]
  exact Nat.le_add_right ..

theorem Kept.intern {h : History StringPool Call} (hk : Kept h) (text : String)
    (caseSensitive tagged : Bool) : Kept (h.serve noteCall (.intern text caseSensitive tagged)) := by
  have hlog : (h.serve noteCall (.intern text caseSensitive tagged)).log =
      h.log ++ [⟨cut text, (h.state.intern text caseSensitive tagged).1⟩] := History.log_serve_of_some rfl
  have hstate : (h.serve noteCall (.intern text caseSensitive tagged)).state =
      (h.state.intern text caseSensitive tagged).2 := rfl
  refine ⟨hk.sound.intern text caseSensitive tagged, ?_⟩
  intro hfits
  have hbefore : h.state.extent < 0x100000000 :=
    Nat.lt_of_le_of_lt (extent_le_intern hk.sound text caseSensitive tagged) hfits
  have hany (offset : UInt32) : (firstCalls h.log).any (offset == ·.offset) =
      h.state.entries.toList.any (offset == ·.start) := by
    rw [← hk.entries hbefore, List.any_map]
    rfl
  rw [firstCalls, hlog, eraseDupsBy_concat, ← firstCalls, hany, ← hk.entries hbefore, hstate,
    hk.sound.intern_eq]
  split
  · rename_i e he
    have hmem : e ∈ h.state.entries.toList := List.mem_of_find?_eq_some he
    have hold : h.state.entries.toList.any (e.start == ·.start) = true :=
      List.any_eq_true.mpr ⟨e, hmem, beq_self_eq_true _⟩
    simp [hold]
  · -- Every entry starts before the end of the pool, where the new one lies.
    have hnew : h.state.entries.toList.any (h.state.size == ·.start) = false := by
      rw [List.any_eq_false]
      intro e he hsame
      have hsize := hk.sound.size_lt hbefore he
      have hbounds := hk.sound.bounds hbefore he
      rw [beq_iff_eq.mp hsame] at hbounds
      omega
    simp [hnew, StringPool.push]

theorem kept_after (requests : List Request) : Kept ((History.fresh empty).after noteCall requests) := by
  refine History.after_induction kept_empty ?_ requests
  intro h request hk
  cases request with
  | intern text caseSensitive tagged => exact hk.intern text caseSensitive tagged
  | internInt n => exact hk.intern (toString n) true false
  | internFloat x => exact hk.intern (Decimal.general x) true false
  | reset => exact kept_empty

theorem state_noteCall (p : StringPool) (request : Request) : (p.noteCall request).1 = p.serve request := by
  cases request <;> rfl

end StringPool

-- ---------------------------------------------------------------------------
-- What is printed
-- ---------------------------------------------------------------------------

namespace Image

/-- An offset in a column of six places, and the text in quotes. -/
def textLine (offset : Nat) (text : String) : String :=
  "  @" ++ padRight 6 (toString offset) ++ " " ++ Text.quoted text

theorem textLine_inj (h : textLine offset text = textLine offset' text') :
    offset = offset' ∧ text = text' := by
  have digits (n : Nat) : (toString n).toList = Nat.toDigits 10 n := by
    rw [Nat.toString_eq_ofList_toDigits, String.toList_ofList]
  have blank (n : Nat) : ' ' ∉ (toString n).toList := by
    rw [digits]
    intro hmem
    exact absurd (Nat.isDigit_of_mem_toDigits (by decide) (by decide) hmem) (by decide)
  simp only [textLine, String.append_assoc, String.append_right_inj] at h
  simp only [← String.append_assoc] at h
  obtain ⟨hoffset, hquoted⟩ := Text.padRight_append_inj (blank offset) (blank offset') h
  refine ⟨?_, Text.quoted_inj hquoted⟩
  calc offset
    _ = Nat.ofDigitChars 10 (Nat.toDigits 10 offset) 0 := Nat.ofDigitChars_ten_toDigits.symm
    _ = Nat.ofDigitChars 10 (Nat.toDigits 10 offset') 0 := by rw [← digits, ← digits, hoffset]
    _ = offset' := Nat.ofDigitChars_ten_toDigits

/-- Nothing is printed of no bytes. Of others there is a heading with their number between two rules,
a line for each text and an empty line. -/
structure Printed (title : String) (size : Nat) (texts : List (Nat × String)) (lines : List String) :
    Prop where
  nothing : size = 0 → lines = []
  something : 0 < size → lines =
    [String.ofList (List.replicate 40 '═'), " " ++ title ++ " (" ++ toString size ++ ")",
      String.ofList (List.replicate 40 '═')] ++
      texts.map (fun (offset, text) => textLine offset text) ++ [""]

theorem printed_stringLines (title : String) (pool : List Byte) :
    Printed title pool.length (poolTexts pool) (stringLines title pool) where
  nothing h := if_pos h
  something h := if_neg (Nat.ne_of_gt h)

/-- Whatever texts a pool was given, a listing of its bytes prints the texts of its entries that are
not empty, in the order in which they were made and at the offsets that were answered for them, as
long as the pool is below 2³² bytes. In any bytes at all the scan ends, and prints exactly the longest
stretches without a zero, in order. A line that is printed is that of one offset and one text. -/
theorem listing_recovers_pool :
    (∀ requests : List StringPool.Request,
      let p := StringPool.empty.after requests
      let shown := (p.entries.toList.filter (·.text ≠ "")).map fun e => (e.start.toNat, e.text)
      let calls := StringPool.firstCalls
        ((History.fresh StringPool.empty).after StringPool.noteCall requests).log
      p.extent < 0x100000000 →
        poolTexts p.bytes = shown ∧
        shown = (calls.filter (·.text ≠ "")).map (fun c => (c.offset.toNat, c.text)) ∧
        ∀ title, Printed title p.bytes.length shown (stringLines title p.bytes)) ∧
    (∀ pool : List Byte,
      scanWithin pool pool.length 0 = some (runs 0 pool) ∧
      (∀ offset run, (offset, run) ∈ runs 0 pool ↔ MaximalRun pool offset run) ∧
      ((runs 0 pool).Pairwise fun a b => a.1 + a.2.length < b.1) ∧
      ∀ title, Printed title pool.length
        ((runs 0 pool).map fun (offset, run) => (offset, Text.ofBytesLossy run)) (stringLines title pool)) ∧
    ∀ offset text offset' text', textLine offset text = textLine offset' text' →
      offset = offset' ∧ text = text' := by
  refine ⟨?_, ?_, fun _ _ _ _ => textLine_inj⟩
  · intro requests p shown calls hfits
    obtain ⟨hsound, hcalls⟩ := StringPool.kept_after requests
    rw [History.state_after _ StringPool.state_noteCall] at hsound hcalls
    have htexts : poolTexts p.bytes = shown := poolTexts_bytes hsound hfits
    refine ⟨htexts, ?_, fun title => htexts ▸ printed_stringLines title p.bytes⟩
    rw [show calls = _ from (hcalls hfits).symm, List.filter_map, List.map_map]
    rfl
  · intro pool
    refine ⟨scanWithin_eq (Nat.le_add_left _ 0), ?_, runs_apart, fun title => printed_stringLines title pool⟩
    intro offset run
    simp [mem_runs]

/-- An empty text, a tag with its padding, and a text that is asked for again in other letters. -/
def sampleScanned : List StringPool.Request :=
  [.internInt 5, .reset, .intern "" true false, .intern "é" false true, .intern "" true true,
    .intern "Name\x00rest" false false, .intern "NAME" false false, .internFloat .one,
    .intern "a \"b\"\n" true false]

theorem sampleScanned_recovered :
    let p := StringPool.empty.after sampleScanned
    let rule := "════════════════════════════════════════"
    p.extent < 0x100000000 ∧ poolTexts p.bytes = [(1, "é"), (15, "Name"), (20, "1"), (22, "a \"b\"\n")] ∧
      stringLines "global strings" p.bytes =
        [rule, " global strings (29)", rule, "  @1      \"é\"", "  @15     \"Name\"", "  @20     \"1\"",
          "  @22     \"a \\\"b\\\"\\n\"", ""] ∧
      scanWithin [0, 7, 8, 0, 0, 9] 6 0 = some [(1, [7, 8]), (5, [9])] ∧
      MaximalRun [0, 7, 8, 0, 0, 9] 5 [9] ∧ stringLines "function strings" [] = [] := by
  intro p rule
  have hfits : p.extent < 0x100000000 := by decide +kernel
  have hlength : p.bytes.length = 29 := by decide +kernel
  obtain ⟨hpool, hbytes, -⟩ := listing_recovers_pool
  obtain ⟨htexts, hcalls, hprinted⟩ := hpool sampleScanned hfits
  have hshown : poolTexts p.bytes = [(1, "é"), (15, "Name"), (20, "1"), (22, "a \"b\"\n")] :=
    htexts.trans (hcalls.trans (by decide +kernel))
  have hlines := (hprinted "global strings").something
  rw [← htexts, hshown, hlength] at hlines
  obtain ⟨hscan, hmaximal, -⟩ := hbytes [0, 7, 8, 0, 0, 9]
  have hruns : runs 0 [0, 7, 8, 0, 0, 9] = [(1, [7, 8]), (5, [9])] := by simp [runs]
  refine ⟨hfits, hshown, (hlines (by decide)).trans (by decide +kernel), hscan.trans (by rw [hruns]), ?_, ?_⟩
  · exact (hmaximal 5 [9]).mp (by simp [hruns])
  · exact ((hbytes []).2.2.2 "function strings").nothing rfl

end Image

end ScriptBackend
