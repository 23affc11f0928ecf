import ScriptBackend.Proofs.LocalRecords
import ScriptBackend.Proofs.Scope.Registers
import ScriptBackend.Proofs.Session.Steps

/-!
# Slots and registers

Leaving a function records its variables in the order of their registers, after
whatever was recorded for a function of that name before. So a variable's slot is
its register if the function is new to the unit; if not, the two agree only where the
function had the same variables to begin with.
-/

namespace ScriptBackend

open Text (SameName fold)

-- ---------------------------------------------------------------------------
-- Places of names
-- ---------------------------------------------------------------------------

namespace Locals

theorem place_eq_some {xs : List String} (h : xs.findIdx? (SameName · n) = some k) :
    ∃ a, xs[k]? = some a ∧ SameName a n := by
  obtain ⟨hk, hsame, -⟩ := List.findIdx?_eq_some_iff_getElem.mp h
  exact ⟨xs[k], List.getElem?_eq_getElem hk, of_decide_eq_true hsame⟩

theorem place_congr {xs ys : List String} (h : xs.map fold = ys.map fold) (n : String) :
    xs.findIdx? (SameName · n) = ys.findIdx? (SameName · n) := by
  have hfold : ∀ xs : List String, xs.findIdx? (SameName · n) = (xs.map fold).findIdx? (· = fold n) := by
    intro xs
    rw [List.findIdx?_map]
    rfl
  rw [hfold, hfold, h]

theorem place_of_distinct {names : List String} (h : names.Pairwise fun a b => ¬ SameName a b)
    (hk : names[k]? = some a) (hn : SameName a n) : names.findIdx? (SameName · n) = some k := by
  obtain ⟨hlt, rfl⟩ := List.getElem?_eq_some_iff.mp hk
  refine List.findIdx?_eq_some_iff_getElem.mpr ⟨hlt, decide_eq_true hn, ?_⟩
  intro j hj hsame
  exact List.pairwise_iff_getElem.mp h j k (Nat.lt_trans hj hlt) hlt hj
    ((of_decide_eq_true hsame).trans hn.symm)

theorem place_iff_prefix {names xs : List String} (h : names.Pairwise fun a b => ¬ SameName a b) :
    (∀ k a n, names[k]? = some a → SameName a n → xs.findIdx? (SameName · n) = some k) ↔
      names.map fold <+: xs.map fold := by
  constructor
  · intro hplaces
    rw [List.prefix_iff_getElem?]
    intro k hk
    rw [List.length_map] at hk
    obtain ⟨b, hb, hsame⟩ :=
      place_eq_some (hplaces k names[k] names[k] (List.getElem?_eq_getElem hk) rfl)
    have hfold : fold b = fold names[k] := hsame
    rw [List.getElem?_map, hb, List.getElem_map, Option.map_some, hfold]
  · rintro ⟨rest, hrest⟩ k a n hk hn
    have htake : (xs.take names.length).map fold = names.map fold := by
      rw [List.map_take, ← hrest, List.take_left' (List.length_map ..)]
    rw [← List.take_append_drop names.length xs, List.findIdx?_append, place_congr htake,
      place_of_distinct h hk hn, Option.some_or]

/-- Names recorded after earlier ones have the places that they have among themselves if there are
no earlier ones, or if those begin with the same names. -/
theorem place_getD_iff {names earlier : List String}
    (h : names.Pairwise fun a b => ¬ SameName a b) :
    (∀ k a n, names[k]? = some a → SameName a n →
      (earlier.findIdx? (SameName · n)).getD (earlier.length + k) = k) ↔
      earlier = [] ∨ names.map fold <+: earlier.map fold := by
  rw [← place_iff_prefix h]
  constructor
  · intro hplaces
    by_cases hempty : earlier = []
    · exact .inl hempty
    right
    intro k a n hk hn
    have hpos := List.length_pos_iff.mpr hempty
    have hplace := hplaces k a n hk hn
    cases hfound : earlier.findIdx? (SameName · n) with
    | some i => rw [← hplace, hfound, Option.getD_some]
    | none =>
      -- a new name comes after the earlier ones, of which there are some
      rw [hfound, Option.getD_none] at hplace
      omega
  · rintro (rfl | hbegins) k a n hk hn
    · exact Nat.zero_add k
    · rw [hbegins k a n hk hn, Option.getD_some]

end Locals

-- ---------------------------------------------------------------------------
-- The scope of a function body
-- ---------------------------------------------------------------------------

namespace Session

theorem exists_calls (options : Options) (ops : List Op) :
    ∃ calls, ((new options).after ops).functionVars =
      ((History.fresh Scope.empty).after Scope.noteCall calls).state := by
  apply List.foldlRecOn (motive := fun s : Session => ∃ calls, s.functionVars =
    ((History.fresh Scope.empty).after Scope.noteCall calls).state)
  · exact ⟨[], rfl⟩
  · rintro s ⟨calls, hcalls⟩ op -
    rcases s.functionVars_step op with h | ⟨-, h⟩ | ⟨call, -, -, h⟩
    · exact ⟨calls, h.trans hcalls⟩
    · exact ⟨[], h⟩
    · refine ⟨calls ++ [(call, s.reporter)], ?_⟩
      rw [h, hcalls, History.after_append]
      rfl

theorem holds_functionVars (options : Options) (ops : List Op) :
    let vars := ((new options).after ops).functionVars
    vars.Holds vars.toList := by
  obtain ⟨calls, hcalls⟩ := exists_calls options ops
  simp only [hcalls]
  exact (Scope.sound_after calls).holds

theorem keeps_functionVars (s : Session) {ops : List Op} (hops : ∀ op ∈ ops, op.endsBody = false) :
    Scope.Keeps s.functionVars (s.after ops).functionVars := by
  induction ops generalizing s with
  | nil => exact .refl _
  | cons op ops ih =>
    obtain ⟨hop, hops⟩ := List.forall_mem_cons.mp hops
    refine .trans ?_ (ih (s.step op) hops)
    rcases s.functionVars_step op with h | ⟨hends, -⟩ | ⟨call, hcall, -, h⟩
    · rw [h]
      exact .refl _
    · rw [hop] at hends
      cases hends
    · rw [h]
      refine (s.functionVars.effect_perform call s.reporter).keeps ?_
      rintro rfl
      exact Op.call?_ne_clear hcall

theorem register_of_answer {s : Session} (hregion : s.region = .function)
    (hop : op.call? = some call) (hname : call.name? = some name)
    (hanswer : ((perform op).run s).1 = .ok (.word r)) :
    ∃ v, (s.step op).functionVars.get? name = some v ∧ v.register = r := by
  rw [s.functionVars_call hop, if_pos hregion]
  refine (s.functionVars.effect_perform call s.reporter).register hname ?_
  rw [s.run_call hop, vars_function hregion] at hanswer
  exact Answer.register_of_ofScope hanswer

-- ---------------------------------------------------------------------------
-- Leaving a function
-- ---------------------------------------------------------------------------

theorem run_lookupLocal (s : Session) (namespaceName function name : String) :
    (perform (.lookupLocal namespaceName function name)).run s =
      let run := (s.locals.lookup namespaceName function name).run s.reporter
      (run.1.map .slot, { s with reporter := run.2 }) := by
  rw [perform, Fallible.run_map]
  rfl

theorem lookupLocal_of_place {s : Session}
    (h : (s.locals.slotsOf (Locals.functionKey namespaceName function)).findIdx? (SameName · name) =
      some slot) :
    (perform (.lookupLocal namespaceName function name)).run s = (.ok (.slot (some slot)), s) := by
  rw [run_lookupLocal, Locals.lookup_eq, Locals.lookedUp, h]
  rfl

theorem slotsOf_leaveFunction {s : Session} (h : s.region = .function)
    (namespaceName function : String) :
    (s.step (.leaveFunction namespaceName function)).locals.slotsOf
        (Locals.functionKey namespaceName function) =
      s.locals.slotsOf (Locals.functionKey namespaceName function) ++
        s.functionVars.toList.map (·.name) := by
  rw [← vars_function h]
  exact s.locals.slotsOf_foldl_record function namespaceName s.vars.toList (·.name)

theorem distinct_names {vs : List Variable} (h : Scope.Holds s vs) :
    (vs.map (·.name)).Pairwise fun a b => ¬ SameName a b :=
  List.pairwise_map.mpr h.distinct

/-- A local recorded before keeps its slot, and the others follow in the order of their registers. -/
theorem lookupLocal_left {s : Session} (hregion : s.region = .function)
    (hs : s.functionVars.Holds s.functionVars.toList) (namespaceName function : String)
    (hv : s.functionVars.toList[k]? = some v) (hn : SameName v.name n) :
    let earlier := s.locals.slotsOf (Locals.functionKey namespaceName function)
    let left := s.step (.leaveFunction namespaceName function)
    (perform (.lookupLocal namespaceName function n)).run left =
      (.ok (.slot (some ((earlier.findIdx? (SameName · n)).getD (earlier.length + k)))), left) := by
  intro earlier left
  have hname : (s.functionVars.toList.map (·.name))[k]? = some v.name := by
    rw [List.getElem?_map, hv, Option.map_some]
  apply lookupLocal_of_place
  rw [slotsOf_leaveFunction hregion, List.findIdx?_append,
    Locals.place_of_distinct (distinct_names hs) hname hn, Option.map_some, Nat.add_comm k]
  cases earlier.findIdx? (SameName · n) <;> rfl

/-- All variables of the body that is left have their registers for slots. -/
def SlotsAgree (s : Session) (namespaceName function : String) : Prop :=
  ∀ v ∈ s.functionVars.toList, ∀ n, SameName v.name n →
    let left := s.step (.leaveFunction namespaceName function)
    (perform (.lookupLocal namespaceName function n)).run left =
      (.ok (.slot (some v.register.toNat)), left)

theorem slotsAgree_iff_place {s : Session} (hregion : s.region = .function)
    (hs : s.functionVars.Holds s.functionVars.toList)
    (hlen : s.functionVars.toList.length < 0x100000000) (namespaceName function : String) :
    let earlier := s.locals.slotsOf (Locals.functionKey namespaceName function)
    s.SlotsAgree namespaceName function ↔
      ∀ k a n, (s.functionVars.toList.map (·.name))[k]? = some a → SameName a n →
        (earlier.findIdx? (SameName · n)).getD (earlier.length + k) = k := by
  intro earlier
  constructor
  · intro hagree k a n hk hn
    rw [List.getElem?_map, Option.map_eq_some_iff] at hk
    obtain ⟨v, hv, rfl⟩ := hk
    have hslot := (lookupLocal_left hregion hs namespaceName function hv hn).symm.trans
      (hagree v (List.mem_of_getElem? hv) n hn)
    rw [hs.toNat_register hlen hv] at hslot
    exact Option.some.inj (Answer.slot.inj (Except.ok.inj (Prod.mk.inj hslot).1))
  · intro hplaces v hv n hn
    obtain ⟨k, hk⟩ := List.mem_iff_getElem?.mp hv
    have hname : (s.functionVars.toList.map (·.name))[k]? = some v.name := by
      rw [List.getElem?_map, hk, Option.map_some]
    have hslot := lookupLocal_left hregion hs namespaceName function hk hn
    rw [hs.toNat_register hlen hk]
    exact hslot.trans (by rw [hplaces k v.name n hname hn])

/-- When a function is left, each of its variables has a slot and is found without a word. The
slots are the registers, which calls in the body have answered, exactly if nothing was recorded
for a function of that name before or what was recorded begins with the same names. -/
theorem slots_are_registers_iff (options : Options) (ops : List Op) (namespaceName function : String)
    (hregion : ((new options).after ops).region = .function) :
    let s := (new options).after ops
    let earlier := s.locals.slotsOf (Locals.functionKey namespaceName function)
    let left := s.step (.leaveFunction namespaceName function)
    (∀ before op later call name r, ops = before ++ op :: later →
      ((new options).after before).region = .function → op.call? = some call →
      call.name? = some name → ((perform op).run ((new options).after before)).1 = .ok (.word r) →
      (∀ op ∈ later, op.endsBody = false) →
      ∃ v ∈ s.functionVars.toList, SameName v.name name ∧ v.register = r) ∧
    (∀ k v n, s.functionVars.toList[k]? = some v → SameName v.name n →
      (perform (.lookupLocal namespaceName function n)).run left =
        (.ok (.slot (some ((earlier.findIdx? (SameName · n)).getD (earlier.length + k)))), left)) ∧
    (s.functionVars.toList.length < 0x100000000 →
      (s.SlotsAgree namespaceName function ↔
        earlier = [] ∨ (s.functionVars.toList.map (·.name)).map fold <+: earlier.map fold)) := by
  intro s earlier left
  have hs : s.functionVars.Holds s.functionVars.toList := holds_functionVars options ops
  refine ⟨?_, fun k v n hv hn => lookupLocal_left hregion hs namespaceName function hv hn,
    fun hlen => (slotsAgree_iff_place hregion hs hlen namespaceName function).trans
      (Locals.place_getD_iff (distinct_names hs))⟩
  rintro before op later call name r rfl hbefore hop hname hanswer hlater
  obtain ⟨v, hv, hregister⟩ := register_of_answer hbefore hop hname hanswer
  obtain ⟨v', hv', hregister', -⟩ := keeps_functionVars _ hlater name v hv
  have hget : s.functionVars.get? name = some v' := by
    rw [← hv']
    exact congrArg (fun t : Session => t.functionVars.get? name) (after_append ..)
  obtain ⟨hmem, hsame⟩ := (hs.get? name v').mp hget
  exact ⟨v', hmem, hsame, hregister'.trans hregister⟩

/-- A function that is new to its unit, after another one, which has a variable of the same name. -/
def sampleBody : List Op :=
  [.enterFunction, .assign "b" .float false 1, .leaveFunction "Game" "main",
    .enterFunction, .assign "A" .unsigned true 2, .lookup "b" 3]

theorem sampleBody_slots :
    let s := (new ⟨.deferred, false, 4⟩).after sampleBody
    s.region = .function ∧ s.SlotsAgree "Game" "tick" ∧
      ∃ v ∈ s.functionVars.toList, SameName v.name "b" ∧ v.register = 1 := by
  intro s
  have hregion : s.region = .function := by decide +kernel
  obtain ⟨hregisters, -, hslots⟩ :=
    slots_are_registers_iff ⟨.deferred, false, 4⟩ sampleBody "Game" "tick" hregion
  refine ⟨hregion, (hslots (by decide +kernel)).mpr (.inl (by decide +kernel)), ?_⟩
  exact hregisters (sampleBody.take 5) (.lookup "b" 3) [] (.lookup "b" 3) "b" 1 rfl
    (by decide +kernel) rfl rfl (by rfl) (by simp)

/-- The second body of a function has its slots after those of the first. -/
theorem redefined_function_slots :
    let s := (new ⟨.deferred, false, 4⟩).after
      [.enterFunction, .assign "a" .unsigned false 1, .leaveFunction "Game" "tick",
        .enterFunction, .assign "b" .unsigned false 2]
    s.region = .function ∧ s.functionVars.get? "b" = some ⟨0, .unsigned, "b", false⟩ ∧
      ((perform (.lookupLocal "Game" "tick" "b")).run (s.step (.leaveFunction "Game" "tick"))).1 =
        .ok (.slot (some 1)) :=
  ⟨by decide +kernel, by decide +kernel, by rfl⟩

end Session

end ScriptBackend
