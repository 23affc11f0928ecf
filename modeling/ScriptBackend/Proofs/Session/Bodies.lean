import ScriptBackend.Proofs.FirstOccurrences
import ScriptBackend.Proofs.Interning
import ScriptBackend.Proofs.Session.Slots

/-!
# Function bodies and the top level

Which pools and which scope an operation works on is decided anew each time, from the
region and the mode. In a function body all of it goes to the function's own, but for
names, which are global wherever they are used, and for locals that are recorded. So a
body that is entered and left again, whatever it did and however often it failed, has
not touched the variables and the numbers of the top level.
-/

namespace ScriptBackend

open Text (SameName fold)

-- ---------------------------------------------------------------------------
-- Parts of a session
-- ---------------------------------------------------------------------------

theorem Locals.getElem?_foldl_record (t : Locals)
    (h : ¬ SameName (functionKey namespaceName function) key) (vs : List α) (name : α → String) :
    (vs.foldl (fun t v => t.record function namespaceName (name v)) t).byKey[fold key]? =
      t.byKey[fold key]? := by
  induction vs generalizing t with
  | nil => rfl
  | cons v vs ih => rw [List.foldl_cons, ih, getElem?_record, if_neg h]

namespace StringPool

theorem Sound.entries_intern (hp : Sound p) (text : String) (caseSensitive tagged : Bool) :
    ∃ more, (p.intern text caseSensitive tagged).2.entries.toList = p.entries.toList ++ more ∧
      ∀ e ∈ more, e.text = cut text ∧ e.tagged = tagged := by
  rw [hp.intern_eq]
  split
  · exact ⟨[], by simp⟩
  · exact ⟨_, Array.toList_push, by simp⟩

theorem Sound.entries_after_interns (hp : Sound p) {requests : List Request}
    (h : ∀ request ∈ requests, ∃ name caseSensitive, request = .intern name caseSensitive false) :
    ∃ more, (p.after requests).entries.toList = p.entries.toList ++ more ∧ ∀ e ∈ more,
      e.tagged = false ∧ ∃ name caseSensitive, .intern name caseSensitive false ∈ requests ∧
        e.text = cut name := by
  induction requests generalizing p with
  | nil => exact ⟨[], by simp [after]⟩
  | cons request requests ih =>
    obtain ⟨⟨name, caseSensitive, rfl⟩, hrest⟩ := List.forall_mem_cons.mp h
    obtain ⟨first, hfirst, hnew⟩ := hp.entries_intern name caseSensitive false
    obtain ⟨more, hmore, hnames⟩ := ih (hp.intern name caseSensitive false) hrest
    refine ⟨first ++ more, ?_, ?_⟩
    · rw [← List.append_assoc, ← hfirst, ← hmore]
      rfl
    · intro e he
      rcases List.mem_append.mp he with he | he
      · obtain ⟨htext, htag⟩ := hnew e he
        exact ⟨htag, name, caseSensitive, List.mem_cons_self, htext⟩
      · obtain ⟨htag, n, c, hmem, htext⟩ := hnames e he
        exact ⟨htag, n, c, List.mem_cons_of_mem _ hmem, htext⟩

end StringPool

namespace Scope

theorem Effect.isSome_get?_iff (h : Effect s op result s') (hop : op ≠ .clear) (name : String) :
    (s'.get? name).isSome = true ↔ (s.get? name).isSome = true ∨
      (∃ n, op.name? = some n ∧ SameName n name) ∧ ∃ answer, result = .ok answer := by
  have hfound : ∀ {n v}, s.get? n = some v → SameName n name → (s.get? name).isSome = true := by
    intro n v hget hsame
    rw [← s.get?_congr hsame, hget]
    rfl
  cases h with
  | cleared => exact absurd rfl hop
  | declared n hname hnew =>
    rw [get?_declare_of, hname]
    by_cases hsame : SameName n name
    · simp [hsame]
    · simp [hsame]
  | assigned n v kind hget hresult =>
    rw [get?_use]
    by_cases hsame : SameName n name
    · simp [hsame, hfound hget hsame]
    · simp [Op.name?, hsame]
  | found n v hname _ hget =>
    refine ⟨.inl, ?_⟩
    rintro (hsome | ⟨⟨m, hm, hsame⟩, -⟩)
    · exact hsome
    · cases hname.symm.trans hm
      exact hfound hget hsame
  | refused => simp

end Scope

namespace Session

namespace Op

def inBody : Op → Bool
  | .openUnit _ | .clearTables | .setMode _ | .leaveFunction .. => false
  | _ => true

def nameRequest? (mode : Mode) : Op → Option StringPool.Request
  | .internName (some name) => some (.intern name true false)
  | .emitIdentifier (some identifier) =>
    match mode with
    | .immediate => none
    | .deferred => some (.intern identifier.name false false)
  | _ => none

/-- A name is passed for the global pool: ahead of its use, or with an identifier left open. -/
def PassesName (op : Op) (mode : Mode) (name : String) : Prop :=
  ∃ caseSensitive, op.nameRequest? mode = some (.intern name caseSensitive false)

theorem nameRequest?_eq {op : Op} {mode : Mode} (h : op.nameRequest? mode = some request) :
    ∃ name caseSensitive, request = .intern name caseSensitive false := by
  unfold nameRequest? at h
  split at h
  · exact ⟨_, true, (Option.some.inj h).symm⟩
  · split at h
    · cases h
    · exact ⟨_, false, (Option.some.inj h).symm⟩
  · cases h

def recordedKey? : Op → Option String
  | .recordLocals namespaceName function | .leaveFunction namespaceName function =>
    some (Locals.functionKey namespaceName function)
  | _ => none

def RefersTo (op : Op) (name : String) : Prop :=
  ∃ call n, op.call? = some call ∧ call.name? = some n ∧ SameName n name

end Op

/-- What operations have done to the top level: nothing to its variables and numbers, and no more
than asked for to its names and to the locals. -/
structure SparesTop (s : Session) (ops : List Op) (t : Session) : Prop where
  mode : t.mode = s.mode
  unitVars : t.unitVars = s.unitVars
  evalVars : t.evalVars = s.evalVars
  floats : t.globalPools.floats = s.globalPools.floats
  strings : ∃ requests, requests.Sublist (ops.filterMap (·.nameRequest? s.mode)) ∧
    t.globalPools.strings = s.globalPools.strings.after requests
  locals : ∀ key, (∀ k ∈ ops.filterMap (·.recordedKey?), ¬ SameName k key) →
    t.locals.byKey[fold key]? = s.locals.byKey[fold key]?

/-- Two sessions with the same top level. -/
structure SameTop (s t : Session) : Prop where
  mode : t.mode = s.mode
  unitVars : t.unitVars = s.unitVars
  evalVars : t.evalVars = s.evalVars
  globalPools : t.globalPools = s.globalPools
  locals : t.locals = s.locals

theorem SameTop.refl (s : Session) : SameTop s s := ⟨rfl, rfl, rfl, rfl, rfl⟩

theorem SameTop.spares (h : SameTop s t) (ops : List Op) : SparesTop s ops t where
  mode := h.mode
  unitVars := h.unitVars
  evalVars := h.evalVars
  floats := by rw [h.globalPools]
  strings := ⟨[], List.nil_sublist _, by rw [h.globalPools]; rfl⟩
  locals _ _ := by rw [h.locals]

theorem SparesTop.trans (h : SparesTop s ops t) (h' : SparesTop t ops' u) :
    SparesTop s (ops ++ ops') u where
  mode := h'.mode.trans h.mode
  unitVars := h'.unitVars.trans h.unitVars
  evalVars := h'.evalVars.trans h.evalVars
  floats := h'.floats.trans h.floats
  strings := by
    obtain ⟨requests, hsub, hstrings⟩ := h.strings
    obtain ⟨requests', hsub', hstrings'⟩ := h'.strings
    rw [h.mode] at hsub'
    refine ⟨requests ++ requests', ?_, ?_⟩
    · rw [List.filterMap_append]
      exact hsub.append hsub'
    · rw [hstrings', hstrings, StringPool.after, StringPool.after, StringPool.after, List.foldl_append]
  locals key hkey := by
    simp only [List.filterMap_append, List.mem_append] at hkey
    rw [h'.locals key fun k hk => hkey k (.inr hk), h.locals key fun k hk => hkey k (.inl hk)]

theorem SparesTop.same (h : SparesTop s ops t) (hsame : SameTop t u) : SparesTop s ops u := by
  simpa using h.trans (hsame.spares [])

-- ---------------------------------------------------------------------------
-- One operation in a body
-- ---------------------------------------------------------------------------

section
variable {s : Session}

theorem setVars_function (h : s.region = .function) (v : Scope) :
    s.setVars v = { s with functionVars := v } := by
  simp [setVars, h]

theorem setPools_function (h : s.region = .function) (p : Pools) :
    s.setPools p = { s with functionPools := p } := by
  simp [setPools, h]

theorem sameTop_onVars (h : s.region = .function) (x : Scope.Action α) :
    SameTop s ((onVars x).run s).2 := by
  obtain ⟨v, r, hrun⟩ : ∃ v r, ((onVars x).run s).2 = { s.setVars v with reporter := r } :=
    ⟨_, _, rfl⟩
  rw [hrun, setVars_function h]
  exact ⟨rfl, rfl, rfl, rfl, rfl⟩

theorem sameTop_setPools (h : s.region = .function) (p : Pools) : SameTop s (s.setPools p) := by
  rw [setPools_function h]
  exact ⟨rfl, rfl, rfl, rfl, rfl⟩

theorem sparesTop_internGlobal
    (hrequest : op.nameRequest? s.mode = some (.intern name caseSensitive false)) :
    SparesTop s [op] (s.internGlobal name caseSensitive).2 where
  mode := rfl
  unitVars := rfl
  evalVars := rfl
  floats := rfl
  strings := ⟨[.intern name caseSensitive false], by simp [hrequest], rfl⟩
  locals _ _ := rfl

theorem sparesTop_emitIdentifier (s : Session) (identifier : Option Identifier) :
    SparesTop s [.emitIdentifier identifier] (s.emitIdentifier identifier).2 := by
  cases identifier with
  | none =>
    refine SameTop.spares ?_ _
    simp only [emitIdentifier]
    exact ⟨rfl, rfl, rfl, rfl, rfl⟩
  | some identifier =>
    cases hmode : s.mode with
    | immediate =>
      refine SameTop.spares ?_ _
      rw [emitIdentifier_immediate hmode]
      exact ⟨rfl, rfl, rfl, rfl, rfl⟩
    | deferred =>
      have hnamed : SparesTop s [.emitIdentifier (some identifier)]
          (s.internGlobal identifier.name false).2 :=
        sparesTop_internGlobal (by simp [Op.nameRequest?, hmode])
      rw [emitIdentifier_deferred hmode]
      exact hnamed.same ⟨rfl, rfl, rfl, rfl, rfl⟩

theorem sparesTop_recordLocals
    (hkey : op.recordedKey? = some (Locals.functionKey namespaceName function)) :
    SparesTop s [op] (s.recordLocals namespaceName function) where
  mode := rfl
  unitVars := rfl
  evalVars := rfl
  floats := rfl
  strings := ⟨[], List.nil_sublist _, rfl⟩
  locals key h := by
    have hother : ¬ SameName (Locals.functionKey namespaceName function) key := h _ (by simp [hkey])
    exact s.locals.getElem?_foldl_record hother s.vars.toList (·.name)

theorem sparesTop_step (hregion : s.region = .function) (hop : op.inBody = true) :
    SparesTop s [op] (s.step op) := by
  cases op with
  | openUnit _ | clearTables | setMode _ | leaveFunction _ _ => cases hop
  | enterFunction | setStrict _ | setFile _ | code _ =>
    refine SameTop.spares ?_ _
    exact ⟨rfl, rfl, rfl, rfl, rfl⟩
  | recordLocals namespaceName function => exact sparesTop_recordLocals rfl
  | internString _ _ _ | internIntText _ | internFloatText _ | internFloat _ =>
    exact (sameTop_setPools hregion _).spares _
  | internName name =>
    cases name with
    | none => exact (SameTop.refl s).spares _
    | some name => exact sparesTop_internGlobal rfl
  | emitIdentifier identifier =>
    rw [step_emitIdentifier]
    split
    · exact s.sparesTop_emitIdentifier identifier
    · exact (SameTop.refl s).spares _
  | assign _ _ _ _ | lookup _ _ | lookupKind _ _ =>
    rw [step, perform, run_map_snd]
    exact (sameTop_onVars hregion _).spares _
  | lookupLocal _ _ _ | literal _ _ =>
    rw [step, perform, run_map_snd]
    refine SameTop.spares ?_ _
    exact ⟨rfl, rfl, rfl, rfl, rfl⟩

theorem region_step (hregion : s.region = .function) (hop : op.inBody = true) :
    (s.step op).region = .function := by
  cases hvariables : op.onVariables with
  | true => rw [(s.step_sameTables hvariables).region, hregion]
  | false =>
    cases op with
    | openUnit _ | clearTables | setMode _ | leaveFunction _ _ => cases hop
    | setStrict _ | setFile _ => cases hvariables
    | assign _ _ _ _ | lookup _ _ | lookupKind _ _ | lookupLocal _ _ _ | literal _ _ => cases hvariables
    | enterFunction => rfl
    | recordLocals _ _ | code _ => exact hregion
    | internString _ _ _ | internIntText _ | internFloatText _ | internFloat _ =>
      show (s.setPools _).region = _
      rw [setPools_function hregion, hregion]
    | internName name => cases name <;> exact hregion
    | emitIdentifier identifier =>
      rw [step_emitIdentifier]
      split
      · unfold emitIdentifier
        split <;> exact hregion
      · exact hregion

end

-- ---------------------------------------------------------------------------
-- A whole body
-- ---------------------------------------------------------------------------

theorem sparesTop_after {s : Session} (hregion : s.region = .function) {body : List Op}
    (hbody : ∀ op ∈ body, op.inBody = true) :
    SparesTop s body (s.after body) ∧ (s.after body).region = .function := by
  induction body generalizing s with
  | nil => exact ⟨(SameTop.refl s).spares _, hregion⟩
  | cons op body ih =>
    obtain ⟨hop, hbody⟩ := List.forall_mem_cons.mp hbody
    obtain ⟨hrest, hend⟩ := ih (region_step hregion hop) hbody
    exact ⟨(sparesTop_step hregion hop).trans hrest, hend⟩

def functionOps (body : List Op) (namespaceName name : String) : List Op :=
  .enterFunction :: body ++ [.leaveFunction namespaceName name]

theorem sparesTop_functionOps (s : Session) {body : List Op} (hbody : ∀ op ∈ body, op.inBody = true)
    (namespaceName name : String) :
    SparesTop s (functionOps body namespaceName name)
      (s.after (functionOps body namespaceName name)) := by
  have henter : SparesTop s [.enterFunction] (s.step .enterFunction) := by
    refine SameTop.spares ?_ _
    exact ⟨rfl, rfl, rfl, rfl, rfl⟩
  obtain ⟨hmiddle, -⟩ := sparesTop_after (s := s.step .enterFunction) rfl hbody
  have hrecorded : SparesTop ((s.step .enterFunction).after body) [.leaveFunction namespaceName name]
      (((s.step .enterFunction).after body).recordLocals namespaceName name) :=
    sparesTop_recordLocals rfl
  have hleave : SparesTop ((s.step .enterFunction).after body) [.leaveFunction namespaceName name]
      (((s.step .enterFunction).after body).step (.leaveFunction namespaceName name)) :=
    hrecorded.same ⟨rfl, rfl, rfl, rfl, rfl⟩
  simpa [functionOps] using (henter.trans hmiddle).trans hleave

theorem region_functionOps (s : Session) (body : List Op) (namespaceName name : String) :
    (s.after (functionOps body namespaceName name)).region = .global := by
  simp only [functionOps, after_append]
  rfl

theorem SparesTop.vars_eq (h : SparesTop s ops t) (hregion : t.region = s.region)
    (hs : s.region = .global) : t.vars = s.vars := by
  simp only [vars, hregion, hs, h.mode, h.unitVars, h.evalVars]
  cases s.mode <;> rfl

-- ---------------------------------------------------------------------------
-- Variables of a body
-- ---------------------------------------------------------------------------

/-- A name that operations referred to, and were not refused, since they last entered a function. -/
def Referenced (s : Session) (ops : List Op) (name : String) : Prop :=
  ∃ earlier op later answer, ops = earlier ++ op :: later ∧ .enterFunction ∉ later ∧
    op.RefersTo name ∧ ((perform op).run (s.after earlier)).1 = .ok answer

theorem referenced_concat (s : Session) (ops : List Op) (op : Op) (name : String) :
    s.Referenced (ops ++ [op]) name ↔
      s.Referenced ops name ∧ op ≠ .enterFunction ∨
        op.RefersTo name ∧ ∃ answer, ((perform op).run (s.after ops)).1 = .ok answer := by
  constructor
  · rintro ⟨earlier, op', later, answer, heq, hlater, hrefers, hanswer⟩
    rcases List.eq_nil_or_concat later with rfl | ⟨later, last, rfl⟩
    · obtain ⟨rfl, hop⟩ := List.append_inj' heq rfl
      cases hop
      exact .inr ⟨hrefers, answer, hanswer⟩
    · rw [List.concat_eq_append, ← List.cons_append, ← List.append_assoc] at heq
      obtain ⟨rfl, hop⟩ := List.append_inj' heq rfl
      cases hop
      rw [List.concat_eq_append, List.mem_append, List.mem_singleton, not_or] at hlater
      exact .inl ⟨⟨earlier, op', later, answer, rfl, hlater.1, hrefers, hanswer⟩, Ne.symm hlater.2⟩
  · rintro (⟨⟨earlier, op', later, answer, rfl, hlater, hrefers, hanswer⟩, hop⟩ |
      ⟨hrefers, answer, hanswer⟩)
    · refine ⟨earlier, op', later ++ [op], answer, by simp, ?_, hrefers, hanswer⟩
      rw [List.mem_append, List.mem_singleton, not_or]
      exact ⟨hlater, Ne.symm hop⟩
    · exact ⟨ops, op, [], answer, rfl, List.not_mem_nil, hrefers, hanswer⟩

theorem Op.refersTo_iff {op : Op} {call : Scope.Op} (hcall : op.call? = some call) (name : String) :
    op.RefersTo name ↔ ∃ n, call.name? = some n ∧ SameName n name := by
  simp [RefersTo, hcall]

theorem Op.endsBody_of_inBody {op : Op} (h : op.inBody = true) (hop : op ≠ .enterFunction) :
    op.endsBody = false := by
  cases op with
  | openUnit _ | clearTables | leaveFunction _ _ => cases h
  | enterFunction => exact absurd rfl hop
  | _ => rfl

theorem Op.clears_of_inBody {op : Op} (h : op.inBody = true) : op.clears = false := by
  cases op with
  | openUnit _ | clearTables => cases h
  | _ => rfl

theorem isSome_call_iff {s : Session} (hregion : s.region = .function) (hcall : op.call? = some call)
    (name : String) :
    ((s.step op).functionVars.get? name).isSome = true ↔
      (s.functionVars.get? name).isSome = true ∨
        op.RefersTo name ∧ ∃ answer, ((perform op).run s).1 = .ok answer := by
  have hresult : (∃ answer, ((perform op).run s).1 = .ok answer) ↔
      ∃ answer, ((Scope.perform call).run (s.functionVars, s.reporter)).1 = .ok answer := by
    simp only [s.run_call hcall, vars_function hregion]
    cases hrun : ((Scope.perform call).run (s.functionVars, s.reporter)).1 <;> simp [Except.map]
  have hclear : call ≠ .clear := by
    rintro rfl
    exact Op.call?_ne_clear hcall
  rw [s.functionVars_call hcall, if_pos hregion, hresult, Op.refersTo_iff hcall]
  exact (s.functionVars.effect_perform call s.reporter).isSome_get?_iff hclear name

theorem isSome_iff_referenced (s : Session) {before : List Op}
    (hbefore : ∀ op ∈ before, op.inBody = true) (name : String) :
    ((s.after (.enterFunction :: before)).functionVars.get? name).isSome = true ↔
      s.Referenced (.enterFunction :: before) name := by
  -- Entering empties the scope, a call declares its name unless it is refused, and nothing else counts.
  induction before using List.reverseRecOn with
  | nil =>
    have hempty : (s.step .enterFunction).functionVars = .empty := rfl
    have hnone : ¬ s.Referenced [.enterFunction] name := by
      rw [← List.nil_append [Op.enterFunction], referenced_concat]
      rintro (⟨-, hne⟩ | ⟨⟨call, n, hcall, -⟩, -⟩)
      · exact hne rfl
      · cases hcall
    simp [hempty, hnone, Scope.get?, Scope.empty]
  | append_singleton before op ih =>
    obtain ⟨hbefore, hop⟩ := List.forall_mem_append.mp hbefore
    replace hop := hop op (List.mem_singleton_self op)
    have hregion : (s.after (.enterFunction :: before)).region = .function :=
      (sparesTop_after (s := s.step .enterFunction) rfl hbefore).2
    rw [← List.cons_append, referenced_concat, ← ih hbefore, after_append]
    show (((s.after (.enterFunction :: before)).step op).functionVars.get? name).isSome = true ↔ _
    cases hcall : op.call? with
    | some call =>
      have hne : op ≠ .enterFunction := by
        rintro rfl
        cases hcall
      rw [isSome_call_iff hregion hcall]
      simp [hne]
    | none =>
      have hrefers : ¬ op.RefersTo name := by simp [Op.RefersTo, hcall]
      by_cases hne : op = .enterFunction
      · subst hne
        rw [functionVars_endsBody _ rfl]
        simp [hrefers, Scope.get?, Scope.empty]
      · rw [functionVars_other _ hcall (Op.endsBody_of_inBody hop hne)]
        simp [hne, hrefers]

-- ---------------------------------------------------------------------------
-- Names of a body
-- ---------------------------------------------------------------------------

theorem nameRequests_functionOps (body : List Op) (namespaceName name : String) (mode : Mode) :
    (functionOps body namespaceName name).filterMap (·.nameRequest? mode) =
      body.filterMap (·.nameRequest? mode) := by
  simp [functionOps, Op.nameRequest?]

theorem entries_functionOps {s : Session} (hs : s.globalPools.strings.Sound) {body : List Op}
    (hbody : ∀ op ∈ body, op.inBody = true) (namespaceName name : String) :
    ∃ more, (s.after (functionOps body namespaceName name)).globalPools.strings.entries.toList =
        s.globalPools.strings.entries.toList ++ more ∧
      ∀ e ∈ more, e.tagged = false ∧
        ∃ op ∈ body, ∃ n, op.PassesName s.mode n ∧ e.text = StringPool.cut n := by
  obtain ⟨requests, hsub, hstrings⟩ := (s.sparesTop_functionOps hbody namespaceName name).strings
  rw [nameRequests_functionOps] at hsub
  have hasked : ∀ request ∈ requests, ∃ op ∈ body, op.nameRequest? s.mode = some request :=
    fun request hrequest => List.mem_filterMap.mp (hsub.subset hrequest)
  have hinterns : ∀ request ∈ requests, ∃ name caseSensitive,
      request = StringPool.Request.intern name caseSensitive false := by
    intro request hrequest
    obtain ⟨op, -, hop⟩ := hasked request hrequest
    exact Op.nameRequest?_eq hop
  obtain ⟨more, hmore, hnames⟩ := hs.entries_after_interns hinterns
  refine ⟨more, by rw [hstrings, hmore], ?_⟩
  intro e he
  obtain ⟨htag, n, caseSensitive, hrequest, htext⟩ := hnames e he
  obtain ⟨op, hop, hpasses⟩ := hasked _ hrequest
  exact ⟨htag, op, hop, n, ⟨caseSensitive, hpasses⟩, htext⟩

/-- A function that is entered at the top level and left again leaves the top level as it was: its
variables and its numbers, and its texts but for names that the body passed. The function's own pools
have grown at the end, and locals were recorded for no function but those that were asked for. Inside
the body exactly those names are declared that it referred to, and was not refused, since it was last
entered. -/
theorem function_spares_top_level (options : Options) (ops body : List Op) (namespaceName name : String)
    (hregion : ((new options).after ops).region = .global) (hbody : ∀ op ∈ body, op.inBody = true) :
    let s := (new options).after ops
    let left := s.after (functionOps body namespaceName name)
    left.region = .global ∧ left.vars = s.vars ∧
      SparesTop s (functionOps body namespaceName name) left ∧
      (∃ more, left.globalPools.strings.entries.toList =
          s.globalPools.strings.entries.toList ++ more ∧
        ∀ e ∈ more, e.tagged = false ∧
          ∃ op ∈ body, ∃ n, op.PassesName s.mode n ∧ e.text = StringPool.cut n) ∧
      s.functionPools.Extends left.functionPools ∧
      ∀ before, before <+: body → ∀ n,
        ((s.after (.enterFunction :: before)).vars.get? n).isSome = true ↔
          s.Referenced (.enterFunction :: before) n := by
  intro s left
  have hspares := s.sparesTop_functionOps hbody namespaceName name
  have hleft : left.region = .global := s.region_functionOps body namespaceName name
  have hkept : ∀ op ∈ functionOps body namespaceName name, op.clears = false := by
    simp only [functionOps, List.forall_mem_append, List.forall_mem_cons]
    exact ⟨⟨rfl, fun op hop => Op.clears_of_inBody (hbody op hop)⟩, rfl, List.forall_mem_nil _⟩
  refine ⟨hleft, hspares.vars_eq (hleft.trans hregion.symm) hregion, hspares,
    entries_functionOps (sound_after options ops .global).strings hbody namespaceName name,
    extends_after (r := .function) (sound_after options ops .function) hkept, ?_⟩
  intro before hbefore n
  have hin : ∀ op ∈ before, op.inBody = true := fun op hop => hbody op (hbefore.subset hop)
  have hinside : (s.after (.enterFunction :: before)).region = .function :=
    (sparesTop_after (s := s.step .enterFunction) rfl hin).2
  rw [vars_function hinside]
  exact s.isSome_iff_referenced hin n

/-- A body that is refused a variable, shares a name and a number with the top level, records its
locals halfway and begins anew. -/
def sampleFunction : List Op :=
  [.lookup "top" 3, .assign "TOP" .float false 4, .internFloat .one, .internName (some "Tick"),
    .emitIdentifier (some ⟨"engine", 7⟩), .recordLocals "Game" "helper", .enterFunction,
    .assign "a" .unsigned false 5]

theorem sampleFunction_spares_top_level :
    let s := (new ⟨.deferred, true, 4⟩).after [.assign "top" .unsigned true 1, .internName (some "tick")]
    let left := s.after (functionOps sampleFunction "Game" "main")
    left.vars = s.vars ∧ left.globalPools.floats = s.globalPools.floats ∧
      left.globalPools.strings.entries.toList.map (·.text) = ["tick", "Tick", "engine"] ∧
      left.locals.byKey[fold "Game::other"]? = s.locals.byKey[fold "Game::other"]? ∧
      ¬ s.Referenced (.enterFunction :: sampleFunction) "top" ∧
      s.Referenced (.enterFunction :: sampleFunction) "A" := by
  intro s left
  obtain ⟨-, hvars, hspares, -, -, hdeclared⟩ :=
    function_spares_top_level ⟨.deferred, true, 4⟩
      [.assign "top" .unsigned true 1, .internName (some "tick")] sampleFunction "Game" "main" rfl (by decide)
  refine ⟨hvars, hspares.floats, by decide +kernel, hspares.locals _ (by decide +kernel), ?_, ?_⟩
  · rw [← hdeclared sampleFunction List.prefix_rfl]
    decide +kernel
  · rw [← hdeclared sampleFunction List.prefix_rfl]
    decide +kernel

end Session

end ScriptBackend
