import ScriptBackend.Literal
import ScriptBackend.Locals
import ScriptBackend.Scope

/-!
# What is reported

An action that can report says at most one thing. Which, and what it leaves, is
settled by its arguments and the current file; the reporter adds only whether a
diagnostic ends the action. `Outcome` keeps the two apart, so that runs with
different reporters can be compared.
-/

namespace ScriptBackend

-- ---------------------------------------------------------------------------
-- Running fallible actions
-- ---------------------------------------------------------------------------

namespace Fallible

theorem run_bind_ok {x : Fallible σ α} (h : x.run s = (.ok a, s')) (f : α → Fallible σ β) :
    (x >>= f).run s = (f a).run s' := by
  rw [ExceptT.run_bind]
  show (x.run >>= _) s = _
  simp only [bind, StateT.bind, h]

theorem run_bind_error {x : Fallible σ α} (h : x.run s = (.error e, s')) (f : α → Fallible σ β) :
    (x >>= f).run s = (.error e, s') := by
  rw [ExceptT.run_bind]
  show (x.run >>= _) s = _
  simp only [bind, StateT.bind, h]
  rfl

theorem run_get (s : σ) : (get : Fallible σ σ).run s = (.ok s, s) := rfl

theorem run_map (f : α → β) (x : Fallible σ α) (s : σ) :
    (f <$> x).run s = ((x.run s).1.map f, (x.run s).2) := by
  rw [ExceptT.run_map]
  rfl

end Fallible

open Fallible

-- ---------------------------------------------------------------------------
-- Outcomes
-- ---------------------------------------------------------------------------

/-- What an action comes to, whoever listens: it leaves something without a word, or it reports
and leaves one thing if that stops it and another if it goes on. -/
inductive Outcome (ρ : Type) where
  | silent (left : ρ)
  | reports (d : Diagnostic) (stopped left : ρ)

namespace Outcome

def under : Outcome ρ → Reporter → ρ × Reporter
  | .silent left, r => (left, r)
  | .reports d stopped left, r => (if r.strict then stopped else left, r.deliver d)

def spoken : Outcome ρ → List Diagnostic
  | .silent _ => []
  | .reports d _ _ => [d]

def map (f : ρ → ρ') : Outcome ρ → Outcome ρ'
  | .silent left => .silent (f left)
  | .reports d stopped left => .reports d (f stopped) (f left)

theorem under_map (f : ρ → ρ') (o : Outcome ρ) (r : Reporter) :
    (o.map f).under r = (f (o.under r).1, (o.under r).2) := by
  cases o with
  | silent left => rfl
  | reports d stopped left =>
    simp only [map, under]
    split <;> rfl

theorem delivered_under (o : Outcome ρ) (r : Reporter) :
    (o.under r).2.delivered.toList = r.delivered.toList ++ o.spoken := by
  cases o with
  | silent left => exact (List.append_nil _).symm
  | reports d stopped left => exact Array.toList_push

end Outcome

-- ---------------------------------------------------------------------------
-- Escalation
-- ---------------------------------------------------------------------------

def Unescalated (result : Except Failure α) : Prop := ∀ d, result ≠ .error (.escalated d)

theorem unescalated_ok (a : α) : Unescalated (.ok a) := by
  rintro d ⟨⟩

theorem Unescalated.error {result : Except Failure α} (h : Unescalated result)
    (he : result = .error e) : Unescalated (.error e : Except Failure β) := by
  rintro d ⟨⟩
  exact h d he

theorem Unescalated.map {result : Except Failure α} (h : Unescalated result) (f : α → β) :
    Unescalated (result.map f) := by
  cases result with
  | ok a => exact unescalated_ok (f a)
  | error e => exact h.error rfl

namespace Outcome

/-- A report that stops the action is the failure it ends with, and no other end is one. -/
def Candid (result : ρ → Except Failure α) : Outcome ρ → Prop
  | .silent left => Unescalated (result left)
  | .reports d stopped left => result stopped = .error (.escalated d) ∧ Unescalated (result left)

theorem Candid.map {o : Outcome ρ} {result : ρ → Except Failure α} (h : o.Candid result)
    {g : ρ → ρ'} {result' : ρ' → Except Failure β} (f : α → β)
    (hg : ∀ left, result' (g left) = (result left).map f) : (o.map g).Candid result' := by
  cases o with
  | silent left =>
    show Unescalated (result' (g left))
    rw [hg]
    exact Unescalated.map h f
  | reports d stopped left =>
    obtain ⟨hstopped, hleft⟩ := h
    refine ⟨?_, ?_⟩
    · rw [hg, hstopped]
      rfl
    · rw [hg]
      exact hleft.map f

/-- An action that ends with a diagnostic has delivered it, and done nothing else to the reporter. -/
theorem Candid.of_escalated {o : Outcome ρ} {result : ρ → Except Failure α} (h : o.Candid result)
    (hresult : result (o.under r).1 = .error (.escalated d)) :
    r.strict = true ∧ (o.under r).2 = r.deliver d := by
  cases o with
  | silent left => exact absurd hresult (h d)
  | reports e stopped left =>
    obtain ⟨hstopped, hleft⟩ := h
    cases hstrict : r.strict with
    | false =>
      simp only [under, hstrict, Bool.false_eq_true, if_false] at hresult
      exact absurd hresult (hleft d)
    | true =>
      simp only [under, hstrict, if_true, hstopped] at hresult
      cases hresult
      exact ⟨rfl, rfl⟩

end Outcome

-- ---------------------------------------------------------------------------
-- Actions that report
-- ---------------------------------------------------------------------------

theorem Reporter.report_run (d : Diagnostic) (r : Reporter) :
    (report d).run r = (if r.strict then .error (.escalated d) else .ok (), r.deliver d) := by
  obtain ⟨strict, file, reported, delivered⟩ := r
  cases strict <;> rfl

def Locals.lookupOutcome (t : Locals) (namespaceName function name : String) :
    Outcome (Except Failure (Option Nat)) :=
  let key := functionKey namespaceName function
  match t.slot? key name with
  | some slot => .silent (.ok (some slot))
  | none => .reports (.unresolvedLocal name key) (.error (.escalated (.unresolvedLocal name key))) (.ok none)

theorem Locals.lookup_run (t : Locals) (namespaceName function name : String) (r : Reporter) :
    (t.lookup namespaceName function name).run r =
      (t.lookupOutcome namespaceName function name).under r := by
  cases h : t.slot? (functionKey namespaceName function) name with
  | some slot =>
    simp only [lookup, lookupOutcome, h]
    rfl
  | none =>
    have hreport := Reporter.report_run (.unresolvedLocal name (functionKey namespaceName function)) r
    simp only [lookup, lookupOutcome, Outcome.under, h, Option.isNone_none, if_true]
    cases hstrict : r.strict with
    | true =>
      rw [hstrict] at hreport
      exact run_bind_error hreport _
    | false =>
      rw [hstrict] at hreport
      exact run_bind_ok hreport _

theorem Locals.candid_lookup (t : Locals) (namespaceName function name : String) :
    (t.lookupOutcome namespaceName function name).Candid id := by
  unfold lookupOutcome
  dsimp only
  split
  · exact unescalated_ok _
  · exact ⟨rfl, unescalated_ok _⟩

def Literal.outcome (text : String) (location : Option Location) : Outcome (Except Failure Binary64) :=
  let x := leadingNumber text
  if !x.isZero then .silent (.ok x)
  else if Text.SameName text "true" then .silent (.ok .one)
  else if Text.SameName text "false" then .silent (.ok (.zero false))
  else
    match location with
    | none => .silent (.ok (.zero false))
    | some l => .reports (.alwaysZero l) (.error (.escalated (.alwaysZero l))) (.ok (.zero false))

theorem Literal.toNumber_run (text : String) (location : Option Location) (r : Reporter) :
    (toNumber text location).run r = (outcome text location).under r := by
  simp only [toNumber, outcome]
  split
  · rfl
  split
  · rfl
  split
  · rfl
  cases location with
  | none => rfl
  | some l =>
    obtain ⟨strict, file, reported, delivered⟩ := r
    cases strict <;> rfl

theorem Literal.candid_outcome (text : String) (location : Option Location) :
    (outcome text location).Candid id := by
  simp only [outcome]
  split
  · exact unescalated_ok _
  split
  · exact unescalated_ok _
  split
  · exact unescalated_ok _
  cases location with
  | none => exact unescalated_ok _
  | some l => exact ⟨rfl, unescalated_ok _⟩

namespace Scope

def assignOutcome (s : Scope) (name : String) (kind : ValueKind) (isConstant : Bool)
    (location : Option Location) : Outcome (Except Failure UInt32 × Scope) :=
  match s.get? name with
  | none => .silent (.ok s.count, s.declare name kind isConstant)
  | some v =>
    let s := s.use name v kind
    if v.isConstant then
      .reports (.reassigned name location) (.error (.escalated (.reassigned name location)), s)
        (.ok v.register, s)
    else .silent (.ok v.register, s)

theorem reportAt_run (line : UInt32) (d : Option Location → Diagnostic) (s : Scope) (r : Reporter) :
    (reportAt line d).run (s, r) =
      (if r.strict then .error (.escalated (d (r.location line))) else .ok (), s,
        r.deliver (d (r.location line))) := by
  obtain ⟨strict, file, reported, delivered⟩ := r
  cases strict <;> rfl

theorem assign_run (s : Scope) (name : String) (kind : ValueKind) (isConstant : Bool)
    (line : UInt32) (r : Reporter) :
    (assign name kind isConstant line).run (s, r) =
      let (left, r) := (s.assignOutcome name kind isConstant (r.location line)).under r
      (left.1, left.2, r) := by
  rw [assign, run_bind_ok (run_get _), assignOutcome]
  dsimp only
  cases s.get? name with
  | none => rfl
  | some v =>
    obtain ⟨register, known, spelling, const⟩ := v
    obtain ⟨strict, file, reported, delivered⟩ := r
    cases const <;> cases strict <;> rfl

theorem candid_assign (s : Scope) (name : String) (kind : ValueKind) (isConstant : Bool)
    (location : Option Location) :
    (s.assignOutcome name kind isConstant location).Candid Prod.fst := by
  unfold assignOutcome
  split
  · exact unescalated_ok _
  · dsimp only
    split
    · exact ⟨rfl, unescalated_ok _⟩
    · exact unescalated_ok _

def resolveOutcome (s : Scope) (name : String) (location : Option Location) :
    Outcome (Except Failure Variable × Scope) :=
  match s.get? name with
  | some v => .silent (.ok v, s)
  | none =>
    .reports (.undeclared name location) (.error (.escalated (.undeclared name location)), s)
      (.ok ⟨s.count, .string, name, false⟩, s.declare name .string false)

theorem candid_resolve (s : Scope) (name : String) (location : Option Location) :
    (s.resolveOutcome name location).Candid Prod.fst := by
  unfold resolveOutcome
  split
  · exact unescalated_ok _
  · exact ⟨rfl, unescalated_ok _⟩

theorem get?_declare (s : Scope) (name : String) (kind : ValueKind) (isConstant : Bool) :
    (s.declare name kind isConstant).get? name = some ⟨s.count, kind, name, isConstant⟩ := by
  simp [get?, declare]

theorem resolve_run (s : Scope) (name : String) (line : UInt32) (r : Reporter) :
    (resolve name line).run (s, r) =
      let (left, r) := (s.resolveOutcome name (r.location line)).under r
      (left.1, left.2, r) := by
  rw [resolve, run_bind_ok (run_get _), resolveOutcome]
  dsimp only
  cases h : s.get? name with
  | some v =>
    simp only [Option.isNone_some, Bool.false_eq_true, if_false]
    rw [run_bind_ok (run_get _)]
    simp only [h]
    rfl
  | none =>
    have hreport := reportAt_run line (.undeclared name) s r
    simp only [Option.isNone_none, if_true, Outcome.under]
    cases hstrict : r.strict with
    | true =>
      rw [hstrict] at hreport
      exact run_bind_error hreport _
    | false =>
      have hassign :=
        s.assign_run name .string false line (r.deliver (.undeclared name (r.location line)))
      rw [hstrict] at hreport
      rw [assignOutcome, h] at hassign
      rw [run_bind_ok hreport, run_bind_ok hassign, run_bind_ok (run_get _)]
      simp only [get?_declare]
      rfl

end Scope

end ScriptBackend
