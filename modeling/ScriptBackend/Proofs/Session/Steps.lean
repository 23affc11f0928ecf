import ScriptBackend.Session
import ScriptBackend.Proofs.FloatPool
import ScriptBackend.Proofs.Locals
import ScriptBackend.Proofs.Scope.Calls
import ScriptBackend.Proofs.StringPool

/-!
# What an operation does to a session

Every property of runs in this library is one about single operations first. This
module says once, for each part of a session, what an operation can do to it, and
draws the invariants that hold of every session from that.
-/

namespace ScriptBackend

inductive Pools.Step : Pools → Pools → Prop
  | same (p : Pools) : Step p p
  | string (p : Pools) (text : String) (caseSensitive tagged : Bool) :
    Step p { p with strings := (p.strings.intern text caseSensitive tagged).2 }
  | float (p : Pools) (x : Binary64) : Step p { p with floats := (p.floats.intern x).2 }

structure Pools.Sound (p : Pools) : Prop where
  strings : p.strings.Sound
  floats : p.floats.Sound

theorem Pools.sound_empty : Pools.Sound .empty := ⟨StringPool.sound_empty, FloatPool.sound_empty⟩

theorem Pools.Step.sound (h : Pools.Step p q) (hp : p.Sound) : q.Sound := by
  cases h with
  | same => exact hp
  | string text caseSensitive tagged => exact ⟨hp.strings.intern text caseSensitive tagged, hp.floats⟩
  | float x => exact ⟨hp.strings, hp.floats.intern x⟩

structure Pools.Extends (p q : Pools) : Prop where
  strings : p.strings.entries.toList <+: q.strings.entries.toList
  floats : p.floats.values.toList <+: q.floats.values.toList

theorem Pools.Step.extends (h : Pools.Step p q) (hp : p.Sound) : p.Extends q := by
  cases h with
  | same => exact ⟨List.prefix_rfl, List.prefix_rfl⟩
  | string text caseSensitive tagged =>
    exact ⟨hp.strings.entries_prefix text caseSensitive tagged, List.prefix_rfl⟩
  | float x => exact ⟨List.prefix_rfl, hp.floats.values_prefix x⟩

def Identifier.words (i : Identifier) : List Word := [i.handle.toUInt32, (i.handle >>> 32).toUInt32]

namespace Session

/-- The session after an operation, whether or not the operation fails. -/
def step (s : Session) (op : Op) : Session := ((perform op).run s).2

def after (s : Session) (ops : List Op) : Session := ops.foldl step s

@[simp] theorem after_nil (s : Session) : s.after [] = s := rfl

@[simp] theorem after_cons (s : Session) (op : Op) (ops : List Op) :
    s.after (op :: ops) = (s.step op).after ops := rfl

@[simp] theorem after_append (s : Session) (ops later : List Op) :
    s.after (ops ++ later) = (s.after ops).after later := List.foldl_append

-- ---------------------------------------------------------------------------
-- Operations on variables and reports
-- ---------------------------------------------------------------------------

structure SameTables (s t : Session) : Prop where
  mode : t.mode = s.mode
  region : t.region = s.region
  globalPools : t.globalPools = s.globalPools
  functionPools : t.functionPools = s.functionPools
  references : t.references = s.references
  locals : t.locals = s.locals
  code : t.code = s.code

theorem run_map_snd (f : α → β) (x : Fallible Session α) (s : Session) :
    ((f <$> x).run s).2 = (x.run s).2 := by
  rw [ExceptT.run_map]
  rfl

theorem setVars_sameTables (s : Session) (v : Scope) : SameTables s (s.setVars v) := by
  unfold setVars
  split <;> exact ⟨rfl, rfl, rfl, rfl, rfl, rfl, rfl⟩

theorem onVars_sameTables (x : Scope.Action α) (s : Session) :
    SameTables s ((onVars x).run s).2 := by
  have h := s.setVars_sameTables (x.run (s.vars, s.reporter)).2.1
  exact ⟨h.mode, h.region, h.globalPools, h.functionPools, h.references, h.locals, h.code⟩

theorem onReporter_sameTables (x : Fallible Reporter α) (s : Session) :
    SameTables s ((onReporter x).run s).2 :=
  ⟨rfl, rfl, rfl, rfl, rfl, rfl, rfl⟩

def Op.onVariables : Op → Bool
  | .setStrict _ | .setFile _ | .assign .. | .lookup .. | .lookupKind .. | .lookupLocal ..
  | .literal .. => true
  | _ => false

theorem step_sameTables (s : Session) (h : op.onVariables = true) : SameTables s (s.step op) := by
  cases op with
  | setStrict strict => exact ⟨rfl, rfl, rfl, rfl, rfl, rfl, rfl⟩
  | setFile file => exact ⟨rfl, rfl, rfl, rfl, rfl, rfl, rfl⟩
  | assign name kind isConstant line =>
    rw [step, perform, run_map_snd]
    exact onVars_sameTables _ s
  | lookup name line =>
    rw [step, perform, run_map_snd]
    exact onVars_sameTables _ s
  | lookupKind name line =>
    rw [step, perform, run_map_snd]
    exact onVars_sameTables _ s
  | lookupLocal namespaceName function name =>
    rw [step, perform, run_map_snd]
    exact onReporter_sameTables _ s
  | literal text line =>
    rw [step, perform, run_map_snd]
    exact onReporter_sameTables _ s
  | _ => cases h

theorem step_code (s : Session) (op : CodeBuffer.Op) :
    s.step (.code op) = { s with code := (s.code.apply op).2 } := rfl

theorem run_emitIdentifier (s : Session) (identifier : Option Identifier) :
    (perform (.emitIdentifier identifier)).run s =
      match s.code.checkRoom 2 with
      | .ok () => (.ok (.word (s.emitIdentifier identifier).1), (s.emitIdentifier identifier).2)
      | .error e => (.error e, s) := by
  have hrun : (perform (.emitIdentifier identifier)).run s =
      appending 2 (answerWord (·.emitIdentifier identifier)) s := rfl
  rw [hrun, appending]
  cases s.code.checkRoom 2 <;> rfl

theorem step_emitIdentifier (s : Session) (identifier : Option Identifier) :
    s.step (.emitIdentifier identifier) =
      match s.code.checkRoom 2 with
      | .ok () => (s.emitIdentifier identifier).2
      | .error _ => s := by
  rw [step, run_emitIdentifier]
  cases s.code.checkRoom 2 <;> rfl

-- ---------------------------------------------------------------------------
-- Pools
-- ---------------------------------------------------------------------------

def poolsOf (s : Session) : Region → Pools
  | .global => s.globalPools
  | .function => s.functionPools

theorem pools_eq (s : Session) : s.pools = s.poolsOf s.region := by
  unfold pools
  split <;> rename_i h <;> rw [h] <;> rfl

theorem poolsOf_setPools (s : Session) (p : Pools) (r : Region) :
    (s.setPools p).poolsOf r = if r = s.region then p else s.poolsOf r := by
  unfold setPools
  split <;> rename_i h <;> cases r <;> simp [poolsOf, h]

def Op.clears : Op → Bool
  | .openUnit _ | .clearTables => true
  | _ => false

theorem poolsOf_step_clears (s : Session) (h : op.clears = true) (r : Region) :
    (s.step op).poolsOf r = .empty := by
  cases op with
  | openUnit _ | clearTables => cases r <;> rfl
  | _ => cases h

theorem onStrings_poolsOf (f : StringPool → UInt32 × StringPool) (s : Session) (r : Region) :
    (onStrings f s).2.poolsOf r =
      if r = s.region then { s.poolsOf r with strings := (f (s.poolsOf r).strings).2 }
      else s.poolsOf r := by
  simp only [onStrings, poolsOf_setPools, pools_eq]
  split
  · rename_i h
    rw [h]
  · rfl

theorem internFloat_poolsOf (s : Session) (x : Binary64) (r : Region) :
    (s.internFloat x).2.poolsOf r =
      if r = s.region then { s.poolsOf r with floats := ((s.poolsOf r).floats.intern x).2 }
      else s.poolsOf r := by
  simp only [internFloat, poolsOf_setPools, pools_eq]
  split
  · rename_i h
    rw [h]
  · rfl

theorem internGlobal_poolsOf (s : Session) (name : String) (caseSensitive : Bool) (r : Region) :
    Pools.Step (s.poolsOf r) ((s.internGlobal name caseSensitive).2.poolsOf r) := by
  cases r with
  | global => exact .string _ name caseSensitive false
  | function => exact .same _

theorem emitIdentifier_poolsOf (s : Session) (identifier : Option Identifier) (r : Region) :
    Pools.Step (s.poolsOf r) ((s.emitIdentifier identifier).2.poolsOf r) := by
  unfold emitIdentifier
  split
  · exact .same _
  · exact .same _
  · rename_i i _
    exact s.internGlobal_poolsOf i.name false r

theorem SameTables.poolsOf (h : SameTables s t) (r : Region) : t.poolsOf r = s.poolsOf r := by
  cases r with
  | global => exact h.globalPools
  | function => exact h.functionPools

/-- Literals go to the pools of their region, names to the global ones, and nothing else
touches a pool. -/
theorem poolsOf_step (s : Session) (h : op.clears = false) (r : Region) :
    Pools.Step (s.poolsOf r) ((s.step op).poolsOf r) := by
  have quiet : ∀ {op : Op}, op.onVariables = true →
      Pools.Step (s.poolsOf r) ((s.step op).poolsOf r) := by
    intro op hop
    rw [(s.step_sameTables hop).poolsOf]
    exact .same _
  have strings : ∀ text caseSensitive tagged,
      Pools.Step (s.poolsOf r) ((onStrings (·.intern text caseSensitive tagged) s).2.poolsOf r) := by
    intro text caseSensitive tagged
    rw [onStrings_poolsOf]
    split
    · exact .string _ text caseSensitive tagged
    · exact .same _
  cases op with
  | openUnit _ | clearTables => cases h
  | enterFunction | leaveFunction _ _ | recordLocals _ _ => cases r <;> exact .same _
  | setMode mode =>
    have : (s.setMode mode).poolsOf r = s.poolsOf r := by
      unfold setMode
      split
      · rfl
      · cases r <;> rfl
    show Pools.Step (s.poolsOf r) ((s.setMode mode).poolsOf r)
    rw [this]
    exact .same _
  | internString text caseSensitive tagged => exact strings text caseSensitive tagged
  | internIntText n => exact strings (toString n) true false
  | internFloatText x => exact strings (Decimal.general x) true false
  | internFloat x =>
    show Pools.Step (s.poolsOf r) ((s.internFloat x).2.poolsOf r)
    rw [internFloat_poolsOf]
    split
    · exact .float _ x
    · exact .same _
  | internName name =>
    cases name with
    | none => exact .same _
    | some name => exact s.internGlobal_poolsOf name true r
  | emitIdentifier identifier =>
    rw [step_emitIdentifier]
    split
    · exact s.emitIdentifier_poolsOf identifier r
    · exact .same _
  | code op => cases r <;> exact .same _
  | setStrict _ | setFile _ => exact quiet rfl
  | assign _ _ _ _ | lookup _ _ | lookupKind _ _ | lookupLocal _ _ _ | literal _ _ => exact quiet rfl

theorem sound_after (options : Options) (ops : List Op) (r : Region) :
    (((new options).after ops).poolsOf r).Sound := by
  apply List.foldlRecOn (motive := fun s : Session => (s.poolsOf r).Sound)
  · cases r <;> exact Pools.sound_empty
  · intro s hs op _
    cases hop : op.clears with
    | true =>
      rw [s.poolsOf_step_clears hop]
      exact Pools.sound_empty
    | false => exact (s.poolsOf_step hop r).sound hs

theorem extends_after {s : Session} (hs : (s.poolsOf r).Sound) {ops : List Op}
    (hops : ∀ op ∈ ops, op.clears = false) : (s.poolsOf r).Extends ((s.after ops).poolsOf r) := by
  induction ops generalizing s with
  | nil => exact ⟨List.prefix_rfl, List.prefix_rfl⟩
  | cons op ops ih =>
    have hstep := s.poolsOf_step (hops op (by simp)) r
    have hfirst := hstep.extends hs
    have hrest := ih (hstep.sound hs) fun op hop => hops op (List.mem_cons_of_mem _ hop)
    exact ⟨hfirst.strings.trans hrest.strings, hfirst.floats.trans hrest.floats⟩

-- ---------------------------------------------------------------------------
-- Locals
-- ---------------------------------------------------------------------------

/-- Locals stay, are dropped, or have the variables in scope recorded. -/
theorem locals_step (s : Session) (op : Op) :
    (s.step op).locals = s.locals ∨ (s.step op).locals = .empty ∨
      ∃ function namespaceName, (s.step op).locals =
        s.vars.toList.foldl (fun t v => t.record function namespaceName v.name) s.locals := by
  have quiet : ∀ {op : Op}, op.onVariables = true → (s.step op).locals = s.locals :=
    fun hop => (s.step_sameTables hop).locals
  cases op with
  | openUnit _ | clearTables => exact .inr (.inl rfl)
  | leaveFunction namespaceName function | recordLocals namespaceName function =>
    exact .inr (.inr ⟨function, namespaceName, rfl⟩)
  | enterFunction | code _ => exact .inl rfl
  | setMode mode =>
    left
    show (s.setMode mode).locals = s.locals
    unfold setMode
    split <;> rfl
  | internString _ _ _ | internIntText _ | internFloatText _ | internFloat _ =>
    left
    show (s.setPools _).locals = s.locals
    unfold setPools
    split <;> rfl
  | internName name =>
    left
    cases name <;> rfl
  | emitIdentifier identifier =>
    left
    rw [step_emitIdentifier]
    split
    · unfold emitIdentifier
      split <;> rfl
    · rfl
  | setStrict _ | setFile _ => exact .inl (quiet rfl)
  | assign _ _ _ _ | lookup _ _ | lookupKind _ _ | lookupLocal _ _ _ | literal _ _ =>
    exact .inl (quiet rfl)

theorem keyed_after (options : Options) (ops : List Op) :
    ((new options).after ops).locals.Keyed := by
  apply List.foldlRecOn (motive := fun s : Session => s.locals.Keyed) _ _ Locals.keyed_empty
  intro s hs op _
  rcases s.locals_step op with h | h | ⟨function, namespaceName, h⟩ <;> rw [h]
  · exact hs
  · exact Locals.keyed_empty
  · exact hs.foldl_record function namespaceName _ _

-- ---------------------------------------------------------------------------
-- Code
-- ---------------------------------------------------------------------------

structure SameCode (s t : Session) : Prop where
  mode : t.mode = s.mode
  references : t.references = s.references
  code : t.code = s.code

theorem setPools_sameCode (s : Session) (p : Pools) : SameCode s (s.setPools p) := by
  unfold setPools
  split <;> exact ⟨rfl, rfl, rfl⟩

def Op.quiet : Op → Bool
  | .openUnit _ | .clearTables | .setMode _ | .emitIdentifier _ | .code _ => false
  | _ => true

theorem step_sameCode (s : Session) (h : op.quiet = true) : SameCode s (s.step op) := by
  have onVariables : ∀ {op : Op}, op.onVariables = true → SameCode s (s.step op) := by
    intro op hop
    have hsame := s.step_sameTables hop
    exact ⟨hsame.mode, hsame.references, hsame.code⟩
  cases op with
  | openUnit _ | clearTables | setMode _ | emitIdentifier _ | code _ => cases h
  | enterFunction | leaveFunction _ _ | recordLocals _ _ => exact ⟨rfl, rfl, rfl⟩
  | internString _ _ _ | internIntText _ | internFloatText _ | internFloat _ =>
    exact s.setPools_sameCode _
  | internName name => cases name <;> exact ⟨rfl, rfl, rfl⟩
  | setStrict _ | setFile _ => exact onVariables rfl
  | assign _ _ _ _ | lookup _ _ | lookupKind _ _ | lookupLocal _ _ _ | literal _ _ =>
    exact onVariables rfl

theorem emitIdentifier_immediate {s : Session} (h : s.mode = .immediate) (identifier : Identifier) :
    (s.emitIdentifier (some identifier)).2 =
      { s with code := (s.code.emitWords identifier.words).2 } := by
  simp only [emitIdentifier, h]
  rfl

theorem emitIdentifier_deferred {s : Session} (h : s.mode = .deferred) (identifier : Identifier) :
    (s.emitIdentifier (some identifier)).2 =
      let offset := (s.globalPools.strings.intern identifier.name false false).1
      let strings := (s.globalPools.strings.intern identifier.name false false).2
      { s with
        globalPools := { s.globalPools with strings }
        references := s.references.record offset s.code.position
        code := (s.code.emitWords [0, 0]).2 } := by
  simp only [emitIdentifier, h]
  rfl

theorem step_emitIdentifier_none (s : Session) :
    s.step (.emitIdentifier none) = s.step (.code (.emitWords [0, 0])) := by
  have hemit : (s.emitIdentifier none).2 = { s with code := (s.code.emitWords [0, 0]).2 } := by
    unfold emitIdentifier
    cases s.mode <;> rfl
  rw [step_emitIdentifier, step_code]
  cases hroom : s.code.checkRoom 2 with
  | error e => simp [CodeBuffer.apply, CodeBuffer.Op.size?, hroom]
  | ok u =>
    simp only [hemit]
    simp [CodeBuffer.apply, CodeBuffer.Op.size?, CodeBuffer.run, hroom]

-- ---------------------------------------------------------------------------
-- The scope of a function body
-- ---------------------------------------------------------------------------

def Op.call? : Op → Option Scope.Op
  | .assign name kind isConstant line => some (.assign name kind isConstant line)
  | .lookup name line => some (.lookup name line)
  | .lookupKind name line => some (.lookupKind name line)
  | _ => none

theorem Op.call?_ne_clear {op : Op} : op.call? ≠ some .clear := by
  cases op <;> rintro ⟨⟩

def Op.endsBody : Op → Bool
  | .openUnit _ | .clearTables | .enterFunction | .leaveFunction .. => true
  | _ => false

def Answer.ofScope : Scope.Answer → Answer
  | .done => .done
  | .register r => .word r
  | .kind k => .kind k

theorem Answer.register_of_ofScope {result : Except Failure Scope.Answer}
    (h : result.map ofScope = .ok (.word r)) : result = .ok (.register r) := by
  cases result with
  | error e => cases h
  | ok answer =>
    cases answer with
    | done | kind => cases h
    | register r' =>
      cases h
      rfl

theorem run_onVars (f : α → Scope.Answer) (x : Scope.Action α) (s : Session) :
    ((fun a => Answer.ofScope (f a)) <$> onVars x).run s =
      let run := (f <$> x).run (s.vars, s.reporter)
      (run.1.map Answer.ofScope, { s.setVars run.2.1 with reporter := run.2.2 }) := by
  have hrun : (onVars x).run s =
      ((x.run (s.vars, s.reporter)).1,
        { s.setVars (x.run (s.vars, s.reporter)).2.1 with
          reporter := (x.run (s.vars, s.reporter)).2.2 }) := rfl
  rw [Fallible.run_map, hrun, Fallible.run_map]
  cases (x.run (s.vars, s.reporter)).1 <;> rfl

theorem run_call (s : Session) (hop : op.call? = some call) :
    (perform op).run s =
      let run := (Scope.perform call).run (s.vars, s.reporter)
      (run.1.map Answer.ofScope, { s.setVars run.2.1 with reporter := run.2.2 }) := by
  cases op with
  | assign name kind isConstant line =>
    cases hop
    exact run_onVars .register (Scope.assign name kind isConstant line) s
  | lookup name line =>
    cases hop
    exact run_onVars .register (Scope.lookup name line) s
  | lookupKind name line =>
    cases hop
    exact run_onVars .kind (Scope.lookupKind name line) s
  | _ => cases hop

theorem vars_function {s : Session} (h : s.region = .function) : s.vars = s.functionVars := by
  rw [vars, h]

theorem functionVars_setVars (s : Session) (v : Scope) :
    (s.setVars v).functionVars = if s.region = .function then v else s.functionVars := by
  unfold setVars
  split <;> simp [*]

theorem functionVars_call (s : Session) (hop : op.call? = some call) :
    (s.step op).functionVars =
      if s.region = .function then ((Scope.perform call).run (s.functionVars, s.reporter)).2.1
      else s.functionVars := by
  have hstep : (s.step op).functionVars =
      (s.setVars ((Scope.perform call).run (s.vars, s.reporter)).2.1).functionVars := by
    rw [step, s.run_call hop]
  rw [hstep, functionVars_setVars]
  by_cases h : s.region = .function
  · rw [if_pos h, if_pos h, vars_function h]
  · rw [if_neg h, if_neg h]

theorem functionVars_endsBody (s : Session) (hop : op.endsBody = true) :
    (s.step op).functionVars = .empty := by
  cases op with
  | openUnit _ | clearTables | enterFunction | leaveFunction _ _ => rfl
  | _ => cases hop

theorem functionVars_other (s : Session) (hcall : op.call? = none) (hop : op.endsBody = false) :
    (s.step op).functionVars = s.functionVars := by
  cases op with
  | openUnit _ | clearTables | enterFunction | leaveFunction _ _ => cases hop
  | assign _ _ _ _ | lookup _ _ | lookupKind _ _ => cases hcall
  | recordLocals _ _ | setStrict _ | setFile _ | code _ => rfl
  | lookupLocal _ _ _ | literal _ _ =>
    rw [step, perform, run_map_snd]
    rfl
  | setMode mode =>
    show (s.setMode mode).functionVars = _
    unfold setMode
    split <;> rfl
  | internString _ _ _ | internIntText _ | internFloatText _ | internFloat _ =>
    show (s.setPools _).functionVars = _
    unfold setPools
    split <;> rfl
  | internName name => cases name <;> rfl
  | emitIdentifier identifier =>
    rw [step_emitIdentifier]
    split
    · unfold emitIdentifier
      split <;> rfl
    · rfl

/-- The variables of a function body stay, are dropped with the body, or are those that a call
leaves. -/
theorem functionVars_step (s : Session) (op : Op) :
    (s.step op).functionVars = s.functionVars ∨
      op.endsBody = true ∧ (s.step op).functionVars = .empty ∨
      ∃ call, op.call? = some call ∧ s.region = .function ∧
        (s.step op).functionVars = ((Scope.perform call).run (s.functionVars, s.reporter)).2.1 := by
  cases hends : op.endsBody with
  | true => exact .inr (.inl ⟨rfl, s.functionVars_endsBody hends⟩)
  | false =>
    cases hcall : op.call? with
    | none => exact .inl (s.functionVars_other hcall hends)
    | some call =>
      by_cases hregion : s.region = .function
      · refine .inr (.inr ⟨call, rfl, hregion, ?_⟩)
        rw [s.functionVars_call hcall, if_pos hregion]
      · left
        rw [s.functionVars_call hcall, if_neg hregion]

end Session

end ScriptBackend
