import ScriptBackend.Proofs.Locals
import ScriptBackend.Proofs.Reporting

/-!
# Tables as records of their functions

A table of locals is made by recording names for functions, in any order. It says of
each function what was recorded for that function and nothing else, so records for
different functions can be interleaved at will. Functions are told apart by their
joined names without case; names joined from different parts can be equal, unless no
namespace has a colon in it.
-/

namespace ScriptBackend.Locals

open Text (SameName fold bytes)

structure Record where
  function : String
  namespaceName : String
  name : String
  deriving DecidableEq, Repr

namespace Record

def key (r : Record) : String := functionKey r.namespaceName r.function

end Record

def ofRecords (rs : List Record) : Locals :=
  rs.foldl (fun t r => t.record r.function r.namespaceName r.name) empty

def recordsOf (key : String) (rs : List Record) : List Record :=
  rs.filter fun r => SameName r.key key

/-- The frame that the records of one function make: the first gives the spelling of its key. -/
def frame? : List Record → Option Frame
  | [] => none
  | r :: rs => some ⟨r.key, (r :: rs).map (·.name)⟩

-- ---------------------------------------------------------------------------
-- What a table says of a function
-- ---------------------------------------------------------------------------

theorem recordsOf_append (key : String) (rs : List Record) (r : Record) :
    recordsOf key (rs ++ [r]) = recordsOf key rs ++ if SameName r.key key then [r] else [] := by
  rw [recordsOf, List.filter_append]
  by_cases h : SameName r.key key <;> simp [recordsOf, h]

theorem frame?_append (rs : List Record) (r : Record) :
    frame? (rs ++ [r]) = some (((frame? rs).getD ⟨r.key, []⟩).push r.name) := by
  cases rs with
  | nil => rfl
  | cons first rs => simp [frame?, Frame.push]

def Reflects (rs : List Record) (t : Locals) : Prop :=
  ∀ key, t.byKey[fold key]? = frame? (recordsOf key rs)

theorem Reflects.record (h : Reflects rs t) (r : Record) :
    Reflects (rs ++ [r]) (t.record r.function r.namespaceName r.name) := by
  intro key
  have hrecord : _ = if SameName r.key key then _ else _ :=
    t.getElem?_record r.function r.namespaceName r.name key
  rw [hrecord, recordsOf_append, h key]
  by_cases hkey : SameName r.key key
  · rw [if_pos hkey, if_pos hkey, frame?_append]
    rfl
  · rw [if_neg hkey, if_neg hkey, List.append_nil]

theorem Reflects.foldl_record (h : Reflects rs t) (later : List Record) :
    Reflects (rs ++ later) (later.foldl (fun t r => t.record r.function r.namespaceName r.name) t) := by
  induction later generalizing rs t with
  | nil => rwa [List.append_nil]
  | cons r later ih =>
    rw [List.append_cons]
    exact ih (h.record r)

theorem reflects_ofRecords (rs : List Record) : Reflects rs (ofRecords rs) := by
  have hempty : Reflects [] empty := fun key => by simp [empty, recordsOf, frame?]
  exact hempty.foldl_record rs

theorem keyed_ofRecords (rs : List Record) : Keyed (ofRecords rs) := by
  have run : ∀ {t}, Keyed t →
      Keyed (rs.foldl (fun t r => t.record r.function r.namespaceName r.name) t) := by
    induction rs with
    | nil => exact id
    | cons r rs ih => exact fun ht => ih (ht.record r.function r.namespaceName r.name)
  exact run keyed_empty

theorem slotsOf_ofRecords (rs : List Record) (key : String) :
    (ofRecords rs).slotsOf key = (recordsOf key rs).map (·.name) := by
  rw [slotsOf, reflects_ofRecords rs key]
  cases recordsOf key rs <;> rfl

-- ---------------------------------------------------------------------------
-- Frames in order
-- ---------------------------------------------------------------------------

theorem Keyed.mem_frames_iff (ht : Keyed t) : f ∈ t.frames ↔ t.byKey[fold f.key]? = some f := by
  rw [← Std.ExtTreeMap.mem_toList_iff_getElem?_eq_some, ← ht.map_frames, List.mem_map]
  constructor
  · exact fun hf => ⟨f, hf, rfl⟩
  · rintro ⟨g, hg, heq⟩
    exact (Prod.mk.inj heq).2 ▸ hg

theorem Keyed.ascending (ht : Keyed t) :
    t.frames.Pairwise fun f g => bytes (fold f.key) < bytes (fold g.key) := by
  have hordered := Std.ExtTreeMap.ordered_keys_toList (t := t.byKey)
  rw [← ht.map_frames, List.pairwise_map] at hordered
  exact hordered.imp Text.bytes_lt

theorem Keyed.exists_frame_iff (ht : Keyed t) (key : String) :
    (∃ f ∈ t.frames, SameName f.key key) ↔ ∃ f, t.byKey[fold key]? = some f := by
  constructor
  · rintro ⟨f, hf, hkey⟩
    exact ⟨f, hkey ▸ ht.mem_frames_iff.mp hf⟩
  · rintro ⟨f, hf⟩
    have hkey : fold f.key = fold key := ht _ f hf
    exact ⟨f, ht.mem_frames_iff.mpr (hkey ▸ hf), hkey⟩

theorem exists_frame? : (∃ f, frame? rs = some f) ↔ ∃ r, r ∈ rs := by
  cases rs <;> simp [frame?]

theorem mem_recordsOf : r ∈ recordsOf key rs ↔ r ∈ rs ∧ SameName r.key key := by
  simp [recordsOf]

-- ---------------------------------------------------------------------------
-- Look-ups
-- ---------------------------------------------------------------------------

/-- A look-up among the names of a function: a place, without a word, or one diagnostic, which
is the failure of a strict reporter. -/
def lookedUp (names : List String) (name key : String) (r : Reporter) :
    Except Failure (Option Nat) × Reporter :=
  match names.findIdx? (SameName · name) with
  | some slot => (.ok (some slot), r)
  | none =>
    (if r.strict then .error (.escalated (.unresolvedLocal name key)) else .ok none,
      r.deliver (.unresolvedLocal name key))

theorem lookup_eq (t : Locals) (namespaceName function name : String) (r : Reporter) :
    (t.lookup namespaceName function name).run r =
      lookedUp (t.slotsOf (functionKey namespaceName function)) name
        (functionKey namespaceName function) r := by
  rw [lookup_run, lookupOutcome, slot?_eq, lookedUp]
  cases (t.slotsOf (functionKey namespaceName function)).findIdx? (SameName · name) <;> rfl

theorem lookup_congr {t u : Locals}
    (h : t.slotsOf (functionKey namespaceName function) = u.slotsOf (functionKey namespaceName function))
    (name : String) : t.lookup namespaceName function name = u.lookup namespaceName function name := by
  funext r
  calc (t.lookup namespaceName function name).run r
      = lookedUp (t.slotsOf _) name _ r := t.lookup_eq namespaceName function name r
    _ = lookedUp (u.slotsOf _) name _ r := by rw [h]
    _ = (u.lookup namespaceName function name).run r := (u.lookup_eq ..).symm

-- ---------------------------------------------------------------------------
-- Joined names
-- ---------------------------------------------------------------------------

theorem toLower_ne_colon {c : Char} (h : c ≠ ':') : c.toLower ≠ ':' := by
  fun_cases Char.toLower with
  | case1 hupper =>
    intro heq
    have hval : c.val + 32 = 58 := congrArg Char.val heq
    have hlow : 65 ≤ c.val.toNat := hupper.1
    have hhigh : c.val.toNat ≤ 90 := hupper.2
    have hsum : (c.val.toNat + 32) % 0x100000000 = 58 := congrArg UInt32.toNat hval
    omega
  | case2 => exact h

theorem toList_fold_functionKey (namespaceName function : String) :
    (fold (functionKey namespaceName function)).toList =
      (fold namespaceName).toList ++ ':' :: ':' :: (fold function).toList := by
  simp [functionKey]

theorem colon_not_mem_fold (h : ':' ∉ s.toList) : ':' ∉ (fold s).toList := by
  rw [Text.toList_fold, List.mem_map]
  rintro ⟨c, hc, hcolon⟩
  exact toLower_ne_colon (fun heq => h (heq ▸ hc)) hcolon

/-- A namespace without a colon ends at the first one of a joined name. -/
theorem functionKey_same_iff (ha : ':' ∉ a.toList) (hb : ':' ∉ b.toList) :
    SameName (functionKey a f) (functionKey b g) ↔ SameName a b ∧ SameName f g := by
  constructor
  · intro hsame
    have hlist := congrArg String.toList hsame
    rw [toList_fold_functionKey, toList_fold_functionKey] at hlist
    have hspace : (fold a).toList = (fold b).toList := by
      rw [← Text.takeWhile_ne (colon_not_mem_fold ha), hlist, Text.takeWhile_ne (colon_not_mem_fold hb)]
    rw [hspace, List.append_cancel_left_eq, List.cons.injEq, List.cons.injEq] at hlist
    exact ⟨String.toList_inj.mp hspace, String.toList_inj.mp hlist.2.2⟩
  · rintro ⟨hspace, hfunction⟩
    apply String.toList_inj.mp
    rw [toList_fold_functionKey, toList_fold_functionKey, hspace, hfunction]

-- ---------------------------------------------------------------------------
-- Tables of records
-- ---------------------------------------------------------------------------

/-- The table has one frame for each function with records, in the order of the folded keys, and
each says what was recorded for its function. -/
structure Tabulates (rs : List Record) (t : Locals) : Prop where
  ascending : t.frames.Pairwise fun f g => bytes (fold f.key) < bytes (fold g.key)
  keys : ∀ key, (∃ f ∈ t.frames, SameName f.key key) ↔ ∃ r ∈ rs, SameName r.key key
  frames : ∀ f ∈ t.frames, frame? (recordsOf f.key rs) = some f
  lookup : ∀ namespaceName function name r,
    (t.lookup namespaceName function name).run r =
      let key := functionKey namespaceName function
      lookedUp ((recordsOf key rs).map (·.name)) name key r

theorem tabulates_ofRecords (rs : List Record) : Tabulates rs (ofRecords rs) where
  ascending := (keyed_ofRecords rs).ascending
  keys key := by
    rw [(keyed_ofRecords rs).exists_frame_iff, reflects_ofRecords rs key, exists_frame?]
    simp only [mem_recordsOf]
  frames f hf := (reflects_ofRecords rs f.key).symm.trans ((keyed_ofRecords rs).mem_frames_iff.mp hf)
  lookup namespaceName function name r := by rw [lookup_eq, slotsOf_ofRecords]

theorem ofRecords_congr (h : ∀ key, recordsOf key rs = recordsOf key rs') :
    ofRecords rs = ofRecords rs' := by
  refine (keyed_ofRecords rs).ext (keyed_ofRecords rs') fun key => ?_
  rw [reflects_ofRecords rs key, reflects_ofRecords rs' key, h]

def Record.Foreign (r : Record) (namespaceName function : String) : Prop :=
  ':' ∉ r.namespaceName.toList ∧ ':' ∉ namespaceName.toList ∧
    ¬ (SameName r.namespaceName namespaceName ∧ SameName r.function function)

instance (r : Record) (namespaceName function : String) :
    Decidable (r.Foreign namespaceName function) :=
  inferInstanceAs (Decidable (_ ∧ _ ∧ _))

theorem recordsOf_filter {keep : Record → Bool}
    (hkeep : ∀ r ∈ rs, keep r = false → r.Foreign namespaceName function) :
    recordsOf (functionKey namespaceName function) (rs.filter keep) =
      recordsOf (functionKey namespaceName function) rs := by
  rw [recordsOf, recordsOf, List.filter_filter]
  apply List.filter_congr
  intro r hr
  cases hk : keep r with
  | true => exact Bool.and_true _
  | false =>
    obtain ⟨hspace, hspace', hother⟩ := hkeep r hr hk
    have hkey : ¬ SameName r.key (functionKey namespaceName function) :=
      fun hsame => hother ((functionKey_same_iff hspace hspace').mp hsame)
    simp [hkey]

/-- A table of locals depends on the records of each function alone: records of different functions
can be interleaved in any way, the table can be built again from its frames, and a look-up is
settled by the records of its own function. -/
theorem locals_by_own_records (rs : List Record) :
    let t := ofRecords rs
    Tabulates rs t ∧
      (∀ rs', (∀ key, recordsOf key rs' = recordsOf key rs) →
        ofRecords rs' = t ∧ (ofRecords rs').encode = t.encode) ∧
      ofFrames t.frames = t ∧
      ∀ namespaceName function, ∀ keep : Record → Bool,
        (∀ r ∈ rs, keep r = false → r.Foreign namespaceName function) →
        ∀ name, (ofRecords (rs.filter keep)).lookup namespaceName function name =
          t.lookup namespaceName function name := by
  intro t
  refine ⟨tabulates_ofRecords rs, fun rs' h => ?_, (keyed_ofRecords rs).ofFrames_frames, ?_⟩
  · have htable : ofRecords rs' = t := ofRecords_congr h
    exact ⟨htable, congrArg encode htable⟩
  · intro namespaceName function keep hkeep name
    apply lookup_congr
    rw [slotsOf_ofRecords, slotsOf_ofRecords, recordsOf_filter hkeep]

def sampleRecords : List Record :=
  [⟨"tick", "Game", "é"⟩, ⟨"main", "menu", "A"⟩, ⟨"TICK", "game", "b"⟩, ⟨"Tick", "Game", "B"⟩]

theorem sampleRecords_tabulated :
    let t := ofRecords sampleRecords
    t.frames = [⟨"Game::tick", ["é", "b", "B"]⟩, ⟨"menu::main", ["A"]⟩] ∧
      ofRecords [⟨"main", "menu", "A"⟩, ⟨"tick", "Game", "é"⟩, ⟨"TICK", "game", "b"⟩,
        ⟨"Tick", "Game", "B"⟩] = t ∧
      (ofRecords [⟨"tick", "Game", "é"⟩, ⟨"TICK", "game", "b"⟩, ⟨"Tick", "Game", "B"⟩]).lookup
        "GAME" "tick" "B" = t.lookup "GAME" "tick" "B" ∧
      (t.lookup "GAME" "tick" "B").run (.new true) = (.ok (some 1), .new true) := by
  intro t
  obtain ⟨htabulates, hinterleaved, -, hforeign⟩ := locals_by_own_records sampleRecords
  refine ⟨by decide +kernel, (hinterleaved _ fun key => ?_).1, ?_, ?_⟩
  · have hapart : ¬ SameName (functionKey "Game" "tick") (functionKey "menu" "main") := by
      decide +kernel
    by_cases hgame : SameName (functionKey "Game" "tick") key
    · have hmenu : ¬ SameName (functionKey "menu" "main") key := fun h => hapart (hgame.trans h.symm)
      simp [recordsOf, sampleRecords, Record.key, hgame, hmenu]
    · simp [recordsOf, sampleRecords, Record.key, List.filter_cons, hgame]
  · exact hforeign "GAME" "tick" (·.namespaceName ≠ "menu") (by decide +kernel) "B"
  · have hplace : ((recordsOf (functionKey "GAME" "tick") sampleRecords).map (·.name)).findIdx?
        (SameName · "B") = some 1 := by decide +kernel
    rw [htabulates.lookup, lookedUp, hplace]

/-- Where reports are failures, a name that is not there is not answered with nothing. -/
theorem strict_miss_fails :
    ((recordsOf (functionKey "Game" "tick") sampleRecords).map (·.name)).findIdx? (SameName · "z") = none ∧
      (((ofRecords sampleRecords).lookup "Game" "tick" "z").run (.new true)).1 =
        .error (.escalated (.unresolvedLocal "z" (functionKey "Game" "tick"))) := by
  have hplace : ((recordsOf (functionKey "Game" "tick") sampleRecords).map (·.name)).findIdx?
      (SameName · "z") = none := by decide +kernel
  refine ⟨hplace, ?_⟩
  rw [lookup_eq, slotsOf_ofRecords, lookedUp, hplace]
  rfl

end ScriptBackend.Locals
