import ScriptBackend.Proofs.FirstOccurrences
import ScriptBackend.Proofs.Scope.Calls

/-!
# Registers

A scope keeps its variables by name and its names by register. Both tell of one
list of variables, in which no name stands twice and each variable has its place
for its register. A call adds to the end of that list or changes a kind in it, so
the list is that of the first references, and a name keeps its register.
-/

namespace ScriptBackend

open Text (SameName fold)

namespace Variable

def usedAs (v : Variable) (name : String) (kind : ValueKind) : Variable :=
  if SameName v.name name then { v with kind := v.kind.join kind } else v

@[simp] theorem name_usedAs (v : Variable) (name : String) (kind : ValueKind) :
    (v.usedAs name kind).name = v.name := by
  unfold usedAs
  split <;> rfl

@[simp] theorem register_usedAs (v : Variable) (name : String) (kind : ValueKind) :
    (v.usedAs name kind).register = v.register := by
  unfold usedAs
  split <;> rfl

theorem usedAs_of_same {v : Variable} {name : String} {kind : ValueKind} (h : SameName v.name name) :
    v.usedAs name kind = { v with kind := v.kind.join kind } := if_pos h

theorem usedAs_of_not {v : Variable} {name : String} {kind : ValueKind}
    (h : ¬ SameName v.name name) : v.usedAs name kind = v := if_neg h

end Variable

namespace Scope

-- ---------------------------------------------------------------------------
-- The variables of a scope
-- ---------------------------------------------------------------------------

theorem get?_declare_of (s : Scope) (name : String) (kind : ValueKind) (isConstant : Bool)
    (other : String) :
    (s.declare name kind isConstant).get? other =
      if SameName name other then some ⟨s.count, kind, name, isConstant⟩ else s.get? other := by
  rw [get?, declare, Std.ExtTreeMap.getElem?_insert]
  exact ite_congr (propext Std.compare_eq_iff_eq) (fun _ => rfl) (fun _ => rfl)

theorem get?_use (s : Scope) (name : String) (v : Variable) (kind : ValueKind) (other : String) :
    (s.use name v kind).get? other =
      if SameName name other then some { v with kind := v.kind.join kind } else s.get? other := by
  rw [get?, use, Std.ExtTreeMap.getElem?_insert]
  exact ite_congr (propext Std.compare_eq_iff_eq) (fun _ => rfl) (fun _ => rfl)

theorem get?_congr (s : Scope) (h : SameName a b) : s.get? a = s.get? b :=
  congrArg (s.byName[·]?) h

structure Holds (s : Scope) (vs : List Variable) : Prop where
  order : s.order.toList = vs.map fun v => fold v.name
  get? : ∀ name v, s.get? name = some v ↔ v ∈ vs ∧ SameName v.name name
  register : ∀ k v, vs[k]? = some v → v.register = UInt32.ofNat k
  distinct : vs.Pairwise fun v w => ¬ SameName v.name w.name

namespace Holds

theorem get?_name (h : Holds s vs) (hv : v ∈ vs) : s.get? v.name = some v :=
  (h.get? v.name v).mpr ⟨hv, rfl⟩

theorem toList_eq (h : Holds s vs) : s.toList = vs := by
  have hpart : ∀ ws : List Variable, (∀ w ∈ ws, w ∈ vs) →
      (ws.map fun w => fold w.name).filterMap (s.byName[·]?) = ws := by
    intro ws hws
    induction ws with
    | nil => rfl
    | cons w ws ih =>
      obtain ⟨hw, hws⟩ := List.forall_mem_cons.mp hws
      have hfound : s.byName[fold w.name]? = some w := h.get?_name hw
      rw [List.map_cons, List.filterMap_cons_some hfound, ih hws]
  rw [toList, h.order]
  exact hpart vs fun _ hv => hv

theorem count_eq (h : Holds s vs) : s.count = UInt32.ofNat vs.length := by
  rw [count, ← Array.length_toList, h.order, List.length_map]

theorem atRegister?_eq (h : Holds s vs) (r : UInt32) : s.atRegister? r = vs[r.toNat]? := by
  rw [atRegister?, ← Array.getElem?_toList, h.order, List.getElem?_map]
  cases hv : vs[r.toNat]? with
  | none => rfl
  | some v => exact h.get?_name (List.mem_of_getElem? hv)

theorem get?_eq_none (h : Holds s vs) (hnew : s.get? name = none) (hv : v ∈ vs) :
    ¬ SameName v.name name := by
  intro hsame
  rw [(h.get? name v).mpr ⟨hv, hsame⟩] at hnew
  cases hnew

theorem exists_name_iff (h : Holds s vs) :
    (∃ a ∈ vs.map (·.name), SameName a name) ↔ (s.get? name).isSome = true := by
  rw [Option.isSome_iff_exists]
  constructor
  · rintro ⟨a, ha, hsame⟩
    obtain ⟨v, hv, rfl⟩ := List.mem_map.mp ha
    exact ⟨v, (h.get? name v).mpr ⟨hv, hsame⟩⟩
  · rintro ⟨v, hget⟩
    obtain ⟨hv, hsame⟩ := (h.get? name v).mp hget
    exact ⟨v.name, List.mem_map_of_mem hv, hsame⟩

end Holds

theorem holds_empty : Holds .empty [] where
  order := rfl
  get? name v := by simp [Scope.get?, empty]
  register k v hv := by cases hv
  distinct := .nil

theorem Holds.declare (h : Holds s vs) (hnew : s.get? name = none) (kind : ValueKind)
    (isConstant : Bool) :
    Holds (s.declare name kind isConstant) (vs ++ [⟨s.count, kind, name, isConstant⟩]) where
  order := by
    rw [List.map_append, ← h.order]
    exact Array.toList_push
  get? other v := by
    rw [get?_declare_of, List.mem_append, List.mem_singleton]
    by_cases hother : SameName name other
    · rw [if_pos hother, Option.some.injEq]
      constructor
      · rintro rfl
        exact ⟨.inr rfl, hother⟩
      · rintro ⟨hv | rfl, hsame⟩
        · exact absurd (hsame.trans hother.symm) (h.get?_eq_none hnew hv)
        · rfl
    · rw [if_neg hother, h.get?]
      constructor
      · rintro ⟨hv, hsame⟩
        exact ⟨.inl hv, hsame⟩
      · rintro ⟨hv | rfl, hsame⟩
        · exact ⟨hv, hsame⟩
        · exact absurd hsame hother
  register k v hv := by
    rcases Nat.lt_trichotomy k vs.length with hlt | rfl | hgt
    · rw [List.getElem?_append_left hlt] at hv
      exact h.register k v hv
    · rw [List.getElem?_concat_length] at hv
      cases hv
      exact h.count_eq
    · rw [List.getElem?_eq_none (by simpa using Nat.succ_le_of_lt hgt)] at hv
      cases hv
  distinct := by
    refine List.pairwise_append.mpr ⟨h.distinct, List.pairwise_singleton .., ?_⟩
    intro v hv w hw
    rw [List.mem_singleton.mp hw]
    exact h.get?_eq_none hnew hv

theorem Holds.use (h : Holds s vs) (hget : s.get? name = some v) (kind : ValueKind) :
    Holds (s.use name v kind) (vs.map (·.usedAs name kind)) where
  order := by
    rw [List.map_map]
    exact h.order.trans (List.map_congr_left fun w _ => by simp)
  get? other u := by
    obtain ⟨hv, hname⟩ := (h.get? name v).mp hget
    rw [get?_use, List.mem_map]
    by_cases hother : SameName name other
    · rw [if_pos hother, Option.some.injEq, ← Variable.usedAs_of_same hname]
      constructor
      · rintro rfl
        rw [Variable.name_usedAs]
        exact ⟨⟨v, hv, rfl⟩, hname.trans hother⟩
      · rintro ⟨⟨w, hw, rfl⟩, hsame⟩
        rw [Variable.name_usedAs] at hsame
        have hfound := (h.get? name w).mpr ⟨hw, hsame.trans hother.symm⟩
        rw [hget] at hfound
        cases hfound
        rfl
    · rw [if_neg hother, h.get?]
      constructor
      · rintro ⟨hu, hsame⟩
        exact ⟨⟨u, hu, Variable.usedAs_of_not fun h => hother (h.symm.trans hsame)⟩, hsame⟩
      · rintro ⟨⟨w, hw, rfl⟩, hsame⟩
        rw [Variable.name_usedAs] at hsame
        rw [Variable.usedAs_of_not fun h => hother (h.symm.trans hsame)]
        exact ⟨hw, hsame⟩
  register k u hu := by
    rw [List.getElem?_map, Option.map_eq_some_iff] at hu
    obtain ⟨w, hw, rfl⟩ := hu
    rw [Variable.register_usedAs]
    exact h.register k w hw
  distinct := by
    rw [List.pairwise_map]
    simpa using h.distinct

-- ---------------------------------------------------------------------------
-- First references
-- ---------------------------------------------------------------------------

def Call.name? : Call → Option String
  | ⟨op, .ok _⟩ => op.name?
  | ⟨_, .error _⟩ => none

def referenced (calls : List Call) : List String := calls.filterMap Call.name?

def firsts (names : List String) : List String := names.eraseDupsBy fun a b => SameName a b

theorem referenced_append (calls : List Call) (c : Call) :
    referenced (calls ++ [c]) = referenced calls ++ c.name?.toList := by
  rw [referenced, referenced, List.filterMap_append, List.filterMap_cons]
  cases c.name? <;> rfl

theorem firsts_append (names : List String) (name : String) :
    firsts (names ++ [name]) =
      firsts names ++ if ∃ a ∈ firsts names, SameName a name then [] else [name] := by
  have hany : (firsts names).any (fun a => decide (SameName name a)) = true ↔
      ∃ a ∈ firsts names, SameName a name := by
    simp only [List.any_eq_true, decide_eq_true_eq]
    exact exists_congr fun a => and_congr_right fun _ => ⟨Eq.symm, Eq.symm⟩
  rw [firsts, eraseDupsBy_concat]
  exact congrArg _ (ite_congr (propext hany) (fun _ => rfl) fun _ => rfl)

/-- One more call adds its name to the variables exactly if that is a first reference. -/
theorem Effect.names (h : Effect s op result s') (hop : op ≠ .clear) (hs : Holds s vs)
    (hnames : vs.map (·.name) = firsts (referenced calls)) :
    ∃ vs', Holds s' vs' ∧ vs'.map (·.name) = firsts (referenced (calls ++ [⟨op, result⟩])) := by
  have hfirsts : ∀ name, firsts (referenced calls ++ [name]) =
      vs.map (·.name) ++ if (s.get? name).isSome then [] else [name] := by
    intro name
    rw [firsts_append, ← hnames]
    simp only [hs.exists_name_iff]
  have hrefused : firsts (referenced calls ++ []) = vs.map (·.name) := by
    rw [List.append_nil, hnames]
  rw [referenced_append]
  cases h with
  | cleared => exact absurd rfl hop
  | declared name hname hnew =>
    refine ⟨_, hs.declare hnew op.kind op.isConstant, ?_⟩
    rw [Call.name?, hname, Option.toList_some, hfirsts, hnew, List.map_append]
    rfl
  | assigned name v kind hget hresult =>
    have hkept : (vs.map (·.usedAs name kind)).map (·.name) = vs.map (·.name) := by simp
    refine ⟨_, hs.use hget kind, hkept.trans ?_⟩
    rcases hresult with rfl | ⟨-, d, rfl⟩
    · exact ((hfirsts name).trans (by simp [hget])).symm
    · exact hrefused.symm
  | found name v hname _ hget =>
    refine ⟨vs, hs, ?_⟩
    rw [Call.name?, hname, Option.toList_some, hfirsts, hget]
    exact (List.append_nil _).symm
  | refused => exact ⟨vs, hs, hrefused.symm⟩

-- ---------------------------------------------------------------------------
-- Registers that stay
-- ---------------------------------------------------------------------------

/-- What is declared in a scope has its register and its spelling in another. -/
def Keeps (s s' : Scope) : Prop :=
  ∀ name v, s.get? name = some v →
    ∃ v', s'.get? name = some v' ∧ v'.register = v.register ∧ v'.name = v.name

theorem Keeps.refl (s : Scope) : Keeps s s := fun _ v hv => ⟨v, hv, rfl, rfl⟩

theorem Keeps.trans (h : Keeps s t) (h' : Keeps t u) : Keeps s u := by
  intro name v hv
  obtain ⟨v', hv', hregister, hname⟩ := h name v hv
  obtain ⟨v'', hv'', hregister', hname'⟩ := h' name v' hv'
  exact ⟨v'', hv'', hregister'.trans hregister, hname'.trans hname⟩

theorem Effect.get?_of_some (h : Effect s op result s') (hop : op ≠ .clear)
    (hv : s.get? name = some v) :
    ∃ kind, s'.get? name = some { v with kind } ∧
      (kind = v.kind ∨ ∃ used, kind = v.kind.join used) := by
  cases h with
  | cleared => exact absurd rfl hop
  | declared spelling _ hnew =>
    have hother : ¬ SameName spelling name := by
      intro hsame
      rw [← s.get?_congr hsame, hnew] at hv
      cases hv
    exact ⟨v.kind, by rw [get?_declare_of, if_neg hother, hv], .inl rfl⟩
  | assigned spelling w used hget _ =>
    rw [get?_use]
    by_cases hsame : SameName spelling name
    · rw [← s.get?_congr hsame, hget] at hv
      cases hv
      exact ⟨_, if_pos hsame, .inr ⟨used, rfl⟩⟩
    · exact ⟨v.kind, by rw [if_neg hsame, hv], .inl rfl⟩
  | found | refused => exact ⟨v.kind, hv, .inl rfl⟩

theorem Effect.keeps (h : Effect s op result s') (hop : op ≠ .clear) : Keeps s s' := by
  intro name v hv
  obtain ⟨kind, hget, -⟩ := h.get?_of_some hop hv
  exact ⟨_, hget, rfl, rfl⟩

theorem Op.register_of_answer {op : Op} {r : UInt32} (h : op.answer v = .register r) :
    v.register = r := by
  cases op with
  | lookupKind => cases h
  | assign | lookup | clear => exact Answer.register.inj h

theorem Effect.register (h : Effect s op result s') (hname : op.name? = some name)
    (hresult : result = .ok (.register r)) : ∃ v, s'.get? name = some v ∧ v.register = r := by
  cases h with
  | cleared => cases hname
  | declared _ hname' _ =>
    cases hname.symm.trans hname'
    exact ⟨_, s.get?_declare .., Op.register_of_answer (Except.ok.inj hresult)⟩
  | assigned _ v kind hget hresult' =>
    cases hname
    rcases hresult' with rfl | ⟨-, d, rfl⟩
    · refine ⟨{ v with kind := v.kind.join kind }, ?_, Answer.register.inj (Except.ok.inj hresult)⟩
      exact (s.get?_use ..).trans (if_pos rfl)
    · cases hresult
  | found _ v hname' _ hget =>
    cases hname.symm.trans hname'
    exact ⟨_, hget, Op.register_of_answer (Except.ok.inj hresult)⟩
  | refused => cases hresult

def Answered (calls : List Call) (s : Scope) : Prop :=
  ∀ c ∈ calls, ∀ name r, c.op.name? = some name → c.result = .ok (.register r) →
    ∃ v, s.get? name = some v ∧ v.register = r

theorem keeps_after (h : History Scope Call) {later : List (Op × Reporter)}
    (hlater : ∀ step ∈ later, step.1 ≠ .clear) : Keeps h.state (h.after noteCall later).state :=
  after_related Keeps.refl Keeps.trans Effect.keeps h hlater

structure Sound (h : History Scope Call) : Prop where
  holds : Holds h.state h.state.toList
  names : h.state.toList.map (·.name) = firsts (referenced h.log)
  answered : Answered h.log h.state

theorem sound_empty : Sound (.fresh empty) where
  holds := holds_empty
  names := rfl
  answered := by rintro c ⟨⟩

theorem Sound.serve (hs : Sound h) (step : Op × Reporter) : Sound (h.serve noteCall step) := by
  obtain ⟨op, r⟩ := step
  obtain ⟨result, heffect, hlog⟩ := effect_serve h (op, r)
  by_cases hop : op = .clear
  · subst hop
    exact sound_empty
  rw [if_neg hop] at hlog
  obtain ⟨vs, hvs, hnames⟩ := heffect.names hop hs.holds hs.names
  rw [← hvs.toList_eq, ← hlog] at hnames
  refine ⟨hvs.toList_eq.symm ▸ hvs, hnames, ?_⟩
  intro c hc name r hname hresult
  rw [hlog, List.mem_append, List.mem_singleton] at hc
  rcases hc with hc | rfl
  · obtain ⟨v, hv, rfl⟩ := hs.answered c hc name r hname hresult
    obtain ⟨v', hv', hregister, -⟩ := heffect.keeps hop name v hv
    exact ⟨v', hv', hregister⟩
  · exact heffect.register hname hresult

theorem sound_after (steps : List (Op × Reporter)) : Sound ((History.fresh empty).after noteCall steps) :=
  History.after_induction sound_empty (fun _ step hs => hs.serve step) steps

-- ---------------------------------------------------------------------------
-- Registers as places
-- ---------------------------------------------------------------------------

/-- Registers and variables correspond, one to one. -/
structure Numbered (s : Scope) : Prop where
  inUse : ∀ r, (∃ v ∈ s.toList, v.register = r) ↔ r < s.count
  apart : ∀ a b v w, s.get? a = some v → s.get? b = some w → ¬ SameName a b →
    v.register ≠ w.register
  atRegister : ∀ r v, s.atRegister? r = some v ↔ s.get? v.name = some v ∧ v.register = r

section
variable {s : Scope} {vs : List Variable} {k : Nat} {v : Variable}

/-- While registers do not wrap around, the place of a variable is told by its register. -/
theorem Holds.toNat_register (h : Holds s vs) (hlen : vs.length < 0x100000000)
    (hv : vs[k]? = some v) : v.register.toNat = k := by
  have hk : k < 0x100000000 := Nat.lt_trans (List.getElem?_eq_some_iff.mp hv).1 hlen
  rw [h.register k v hv, UInt32.toNat_ofNat_of_lt' hk]

theorem Holds.toNat_count (h : Holds s vs) (hlen : vs.length < 0x100000000) :
    s.count.toNat = vs.length := by
  rw [h.count_eq, UInt32.toNat_ofNat_of_lt' hlen]

theorem Holds.atRegister?_eq_some_iff (h : Holds s vs) (hlen : vs.length < 0x100000000) :
    s.atRegister? r = some v ↔ v ∈ vs ∧ v.register = r := by
  rw [h.atRegister?_eq]
  constructor
  · intro hv
    exact ⟨List.mem_of_getElem? hv, UInt32.toNat_inj.mp (h.toNat_register hlen hv)⟩
  · rintro ⟨hv, rfl⟩
    obtain ⟨k, hk⟩ := List.mem_iff_getElem?.mp hv
    rw [h.toNat_register hlen hk, hk]

theorem Holds.mem_iff (h : Holds s vs) : v ∈ vs ↔ s.get? v.name = some v :=
  ⟨h.get?_name, fun hget => ((h.get? v.name v).mp hget).1⟩

theorem Holds.numbered (h : Holds s s.toList) (hlen : s.toList.length < 0x100000000) :
    Numbered s where
  inUse r := by
    rw [UInt32.lt_iff_toNat_lt, h.toNat_count hlen]
    constructor
    · rintro ⟨v, hv, rfl⟩
      obtain ⟨k, hk⟩ := List.mem_iff_getElem?.mp hv
      rw [h.toNat_register hlen hk]
      exact (List.getElem?_eq_some_iff.mp hk).1
    · intro hr
      obtain ⟨hv, hregister⟩ := (h.atRegister?_eq_some_iff hlen).mp
        ((h.atRegister?_eq r).trans (List.getElem?_eq_getElem hr))
      exact ⟨_, hv, hregister⟩
  apart a b v w hv hw hab heq := by
    obtain ⟨hv, ha⟩ := (h.get? a v).mp hv
    obtain ⟨hw, hb⟩ := (h.get? b w).mp hw
    have hat := (h.atRegister?_eq_some_iff hlen).mpr ⟨hv, heq⟩
    rw [(h.atRegister?_eq_some_iff hlen).mpr ⟨hw, rfl⟩] at hat
    cases hat
    exact hab (ha.symm.trans hb)
  atRegister r v := by rw [h.atRegister?_eq_some_iff hlen, h.mem_iff]

end

/-- How the variables of a scope come from its calls. -/
structure Allocation (calls : List Call) (s : Scope) : Prop where
  sameName : ∀ a b, SameName a b → s.get? a = s.get? b
  listed : ∀ name v, s.get? name = some v ↔ v ∈ s.toList ∧ SameName v.name name
  once : s.toList.Pairwise fun v w => ¬ SameName v.name w.name
  order : s.toList.map (·.name) = firsts (referenced calls)
  register : ∀ k v, s.toList[k]? = some v → v.register = UInt32.ofNat k
  count : s.count = UInt32.ofNat s.toList.length
  answered : Answered calls s
  /-- Registers are words, so they start again after so many variables. -/
  numbered : s.toList.length < 0x100000000 → Numbered s

theorem Sound.allocation (hs : Sound h) : Allocation h.log h.state where
  sameName _ _ hsame := h.state.get?_congr hsame
  listed := hs.holds.get?
  once := hs.holds.distinct
  order := hs.names
  register := hs.holds.register
  count := hs.holds.count_eq
  answered := hs.answered
  numbered := hs.holds.numbered

/-- Whatever was called, by whichever reporters, and refused or not, registers are given out in the
order of first references, one to each name, and stay until the scope is cleared. No variable is
lost between its declaration and its use. -/
theorem registers_in_first_reference_order (steps : List (Op × Reporter)) :
    let h := (History.fresh empty).after noteCall steps
    Allocation h.log h.state ∧
      (∀ later, (∀ step ∈ later, step.1 ≠ .clear) → Keeps h.state (h.after noteCall later).state) ∧
      ∀ op r name, ((perform op).run (h.state, r)).1 ≠ .error (.internal (.variableVanished name)) := by
  intro h
  refine ⟨(sound_after steps).allocation, fun _ => keeps_after h, ?_⟩
  intro op r name hvanished
  obtain ⟨d, hd⟩ := (hvanished ▸ h.state.effect_perform op r).escalated
  cases hd

/-- A constant assigned again and a name never seen, both also where diagnostics stop a call. -/
def sampleCalls : List (Op × Reporter) :=
  [(.assign "old" .string false 1, .new false), (.clear, .new false),
    (.assign "Total" .unsigned true 2, .new true), (.lookup "index" 3, .new true),
    (.assign "TOTAL" .float false 4, .new true), (.lookup "Index" 5, .new false),
    (.assign "total" .unsigned false 6, .new false), (.lookupKind "INDEX" 7, .new true)]

-- The lookup of "index" is refused, so it is a later one that declares the name and spells it.
theorem sampleCalls_registers :
    let h := (History.fresh empty).after noteCall sampleCalls
    h.state.toList.map (·.name) = ["Total", "Index"] ∧
      (∀ r, (∃ v ∈ h.state.toList, v.register = r) ↔ r < 2) ∧
      ∃ v, (h.after noteCall [(.assign "third" .string false 8, .new false)]).state.get? "tOtAl" = some v ∧
        v.register = 0 ∧ v.name = "Total" := by
  intro h
  obtain ⟨hallocation, hkept, -⟩ := registers_in_first_reference_order sampleCalls
  have hcount : h.state.count = 2 := by decide +kernel
  have hget : h.state.get? "tOtAl" = some ⟨0, .unconstrained, "Total", true⟩ := by decide +kernel
  refine ⟨hallocation.order.trans (by decide +kernel), ?_, ?_⟩
  · rw [← hcount]
    exact (hallocation.numbered (by decide +kernel)).inUse
  · exact hkept [(.assign "third" .string false 8, .new false)] (by decide) _ _ hget

end Scope

end ScriptBackend
