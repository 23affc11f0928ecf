import ScriptBackend.Proofs.Reporting
import ScriptBackend.Proofs.Session.Steps

/-!
# What operations come to

An operation on tables or variables neither sees the code nor depends on what was
reported before or on whether reports are failures. `ComesTo` says so with an
`Outcome`: it holds for every reporter with the session's current file, for either
strictness and for every code.
-/

namespace ScriptBackend

-- ---------------------------------------------------------------------------
-- Listeners
-- ---------------------------------------------------------------------------

namespace Reporter

structure SameSettings (r r' : Reporter) : Prop where
  strict : r'.strict = r.strict
  currentFile : r'.currentFile = r.currentFile

theorem SameSettings.under (h : SameSettings r r') (o : Outcome ρ) :
    (o.under r').1 = (o.under r).1 ∧ SameSettings (o.under r).2 (o.under r').2 := by
  cases o with
  | silent left => exact ⟨rfl, h⟩
  | reports d stopped left =>
    refine ⟨?_, h.strict, h.currentFile⟩
    simp only [Outcome.under, h.strict]

end Reporter

namespace Session

-- ---------------------------------------------------------------------------
-- Operations on tables and variables
-- ---------------------------------------------------------------------------

/-- Operations on tables and variables, which neither see the code nor set the reporter. -/
def Op.tabular : Op → Bool
  | .openUnit _ | .setStrict _ | .setFile _ | .emitIdentifier _ | .code _ => false
  | _ => true

def exchange (s : Session) (strict : Bool) (r : Reporter) (c : CodeBuffer) : Session :=
  { s with options := { s.options with strict }, reporter := r, code := c }

section Exchange

variable (s : Session) (strict : Bool) (r : Reporter) (c : CodeBuffer)

theorem setVars_exchange (v : Scope) :
    (s.exchange strict r c).setVars v = (s.setVars v).exchange strict r c := by
  obtain ⟨⟨mode, _, _⟩, _, region, _, _, _, _, _, _, _, _⟩ := s
  cases region <;> cases mode <;> rfl

theorem setPools_exchange (p : Pools) :
    (s.exchange strict r c).setPools p = (s.setPools p).exchange strict r c := by
  obtain ⟨_, _, region, _, _, _, _, _, _, _, _⟩ := s
  cases region <;> rfl

theorem setMode_exchange (mode : Mode) :
    (s.exchange strict r c).setMode mode = (s.setMode mode).exchange strict r c := by
  by_cases h : mode = s.mode
  · have h' : mode = (s.exchange strict r c).mode := h
    rw [setMode, setMode, if_pos h, if_pos h']
  · have h' : mode ≠ (s.exchange strict r c).mode := h
    rw [setMode, setMode, if_neg h, if_neg h']
    rfl

theorem onStrings_exchange (f : StringPool → UInt32 × StringPool) :
    (s.exchange strict r c).onStrings f = ((s.onStrings f).1, (s.onStrings f).2.exchange strict r c) := by
  show (_, (s.exchange strict r c).setPools _) = _
  rw [setPools_exchange]
  rfl

theorem internFloat_exchange (x : Binary64) :
    (s.exchange strict r c).internFloat x =
      ((s.internFloat x).1, (s.internFloat x).2.exchange strict r c) := by
  show (_, (s.exchange strict r c).setPools _) = _
  rw [setPools_exchange]
  rfl

end Exchange

/-- An operation comes to an outcome whatever the code is, whatever was reported before and
whether or not reports are failures. -/
structure ComesTo (x : Fallible Session Answer) (s : Session)
    (o : Outcome (Except Failure Answer × Session)) : Prop where
  candid : o.Candid Prod.fst
  run : ∀ strict r c, r.currentFile = s.reporter.currentFile →
    x.run (s.exchange strict r c) = ((o.under r).1.1, (o.under r).1.2.exchange strict (o.under r).2 c)

theorem comesTo_change {f : Session → Session}
    (hf : ∀ strict r c, f (s.exchange strict r c) = (f s).exchange strict r c) :
    ComesTo (change f) s (.silent (.ok .done, f s)) := by
  refine ⟨unescalated_ok _, ?_⟩
  intro strict r c _
  show (_, f (s.exchange strict r c)) = _
  rw [hf]
  rfl

theorem comesTo_answerWord {f : Session → UInt32 × Session}
    (hf : ∀ strict r c, f (s.exchange strict r c) = ((f s).1, (f s).2.exchange strict r c)) :
    ComesTo (answerWord f) s (.silent (.ok (.word (f s).1), (f s).2)) := by
  refine ⟨unescalated_ok _, ?_⟩
  intro strict r c _
  show (Except.ok (Answer.word (f (s.exchange strict r c)).1), _) = _
  rw [hf]
  rfl

theorem comesTo_onVars {s : Session} {x : Scope.Action α} {o : Outcome (Except Failure α × Scope)}
    (f : α → Answer) (ho : o.Candid Prod.fst)
    (hx : ∀ r, r.currentFile = s.reporter.currentFile →
      x.run (s.vars, r) = ((o.under r).1.1, (o.under r).1.2, (o.under r).2)) :
    ComesTo (f <$> onVars x) s (o.map fun left => (left.1.map f, s.setVars left.2)) := by
  refine ⟨ho.map f fun _ => rfl, ?_⟩
  intro strict r c hr
  have hrun : (onVars x).run (s.exchange strict r c) =
      ((x.run (s.vars, r)).1,
        { (s.exchange strict r c).setVars (x.run (s.vars, r)).2.1 with
          reporter := (x.run (s.vars, r)).2.2 }) := rfl
  rw [Fallible.run_map, hrun, hx r hr, setVars_exchange, Outcome.under_map]
  rfl

theorem comesTo_onReporter {x : Session → Fallible Reporter α} {s : Session}
    {o : Outcome (Except Failure α)} (f : α → Answer) (ho : o.Candid id)
    (hx : ∀ strict r c, r.currentFile = s.reporter.currentFile →
      (x (s.exchange strict r c)).run r = o.under r) :
    ComesTo (f <$> (do onReporter (x (← get)))) s (o.map fun left => (left.map f, s)) := by
  refine ⟨ho.map f fun _ => rfl, ?_⟩
  intro strict r c hr
  have hrun : (do onReporter (x (← get))).run (s.exchange strict r c) =
      (((x (s.exchange strict r c)).run r).1,
        s.exchange strict ((x (s.exchange strict r c)).run r).2 c) := rfl
  rw [Fallible.run_map, hrun, hx strict r c hr, Outcome.under_map]

theorem location_congr {r r' : Reporter} (h : r.currentFile = r'.currentFile) :
    r.location = r'.location := by
  funext line
  rw [Reporter.location, Reporter.location, h]

theorem comesTo_resolve (s : Session) (name : String) (line : UInt32) (f : Variable → α)
    (g : α → Answer) :
    ComesTo (g <$> onVars (f <$> Scope.resolve name line)) s
      (((s.vars.resolveOutcome name (s.reporter.location line)).map fun left =>
        (left.1.map f, left.2)).map fun left => (left.1.map g, s.setVars left.2)) := by
  refine comesTo_onVars g ((s.vars.candid_resolve name _).map f fun _ => rfl) ?_
  intro r hr
  rw [Fallible.run_map, Scope.resolve_run, location_congr hr, Outcome.under_map]

/-- Operations on tables and variables come to an outcome: what they report and leave depends on
the tables, the variables and the current file. -/
theorem exists_comesTo (s : Session) (h : op.tabular = true) : ∃ o, ComesTo (perform op) s o := by
  cases op with
  | openUnit _ | setStrict _ | setFile _ | emitIdentifier _ | code _ => cases h
  | clearTables => exact ⟨_, comesTo_change fun _ _ _ => rfl⟩
  | enterFunction => exact ⟨_, comesTo_change fun _ _ _ => rfl⟩
  | leaveFunction namespaceName function => exact ⟨_, comesTo_change fun _ _ _ => rfl⟩
  | recordLocals namespaceName function => exact ⟨_, comesTo_change fun _ _ _ => rfl⟩
  | setMode mode =>
    exact ⟨_, comesTo_change fun strict r c => s.setMode_exchange strict r c mode⟩
  | internString text caseSensitive tagged =>
    exact ⟨_, comesTo_answerWord fun strict r c =>
      s.onStrings_exchange strict r c (·.intern text caseSensitive tagged)⟩
  | internIntText n =>
    exact ⟨_, comesTo_answerWord fun strict r c =>
      s.onStrings_exchange strict r c (·.internInt n)⟩
  | internFloatText x =>
    exact ⟨_, comesTo_answerWord fun strict r c =>
      s.onStrings_exchange strict r c (·.internFloat x)⟩
  | internFloat x =>
    exact ⟨_, comesTo_answerWord (f := (·.internFloat x)) fun strict r c =>
      s.internFloat_exchange strict r c x⟩
  | internName name => exact ⟨_, comesTo_change fun _ _ _ => by cases name <;> rfl⟩
  | assign name kind isConstant line =>
    refine ⟨_, comesTo_onVars .word
      (s.vars.candid_assign name kind isConstant (s.reporter.location line)) ?_⟩
    intro r hr
    rw [Scope.assign_run, location_congr hr]
  | lookup name line => exact ⟨_, comesTo_resolve s name line (·.register) .word⟩
  | lookupKind name line => exact ⟨_, comesTo_resolve s name line (·.kind) .kind⟩
  | lookupLocal namespaceName function name =>
    exact ⟨_, comesTo_onReporter .slot (s.locals.candid_lookup namespaceName function name)
      fun _ r _ _ => s.locals.lookup_run namespaceName function name r⟩
  | literal text line =>
    refine ⟨_, comesTo_onReporter .number
      (x := fun s => Literal.toNumber text (line.bind s.reporter.location))
      (Literal.candid_outcome text (line.bind s.reporter.location)) ?_⟩
    intro _ r _ hr
    rw [Literal.toNumber_run, ← location_congr hr]
    rfl

theorem strict_step (s : Session) (hop : op.tabular = true) :
    (s.step op).reporter.strict = s.reporter.strict := by
  obtain ⟨o, ho⟩ := s.exists_comesTo hop
  have hstep : s.step op = _ := congrArg Prod.snd (ho.run s.options.strict s.reporter s.code rfl)
  rw [hstep]
  cases o <;> rfl

end Session

end ScriptBackend
