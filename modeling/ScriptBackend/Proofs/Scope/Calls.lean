import ScriptBackend.Proofs.History
import ScriptBackend.Proofs.Reporting

/-!
# Calls on a scope

A call on a scope declares a name, finds one that is declared, or is refused. What
it answers and leaves is said once, for any reporter, and what a scope has been
through is the list of its calls since it was last cleared.
-/

namespace ScriptBackend

open Fallible

namespace Scope

inductive Op where
  | assign (name : String) (kind : ValueKind) (isConstant : Bool) (line : UInt32)
  | lookup (name : String) (line : UInt32)
  | lookupKind (name : String) (line : UInt32)
  | clear
  deriving DecidableEq, Repr

inductive Answer where
  | done
  | register (register : UInt32)
  | kind (kind : ValueKind)
  deriving DecidableEq, Repr

def perform : Op → Action Answer
  | .assign name kind isConstant line => .register <$> assign name kind isConstant line
  | .lookup name line => .register <$> lookup name line
  | .lookupKind name line => .kind <$> lookupKind name line
  | .clear => (fun _ => .done) <$> modifyScope fun _ => empty

namespace Op

def name? : Op → Option String
  | .assign name .. | .lookup name _ | .lookupKind name _ => some name
  | .clear => none

def reads : Op → Bool
  | .lookup .. | .lookupKind .. => true
  | _ => false

def kind : Op → ValueKind
  | .assign _ kind .. => kind
  | _ => .string

def isConstant : Op → Bool
  | .assign _ _ isConstant _ => isConstant
  | _ => false

def answer : Op → Variable → Answer
  | .lookupKind .., v => .kind v.kind
  | _, v => .register v.register

theorem declares_string {op : Op} (h : op.reads = true) :
    op.kind = .string ∧ op.isConstant = false := by
  cases op with
  | lookup | lookupKind => exact ⟨rfl, rfl⟩
  | assign | clear => cases h

end Op

-- ---------------------------------------------------------------------------
-- What one call comes to
-- ---------------------------------------------------------------------------

def outcome (s : Scope) (op : Op) (r : Reporter) : Outcome (Except Failure Answer × Scope) :=
  match op with
  | .assign name kind isConstant line =>
    (s.assignOutcome name kind isConstant (r.location line)).map fun left =>
      (left.1.map .register, left.2)
  | .lookup name line | .lookupKind name line =>
    (s.resolveOutcome name (r.location line)).map fun left => (left.1.map op.answer, left.2)
  | .clear => .silent (.ok .done, .empty)

theorem run_resolving (s : Scope) (r : Reporter) {op : Op} {name : String} {line : UInt32}
    (hperform : perform op = op.answer <$> resolve name line) :
    (perform op).run (s, r) =
      let (left, r) := ((s.resolveOutcome name (r.location line)).map fun left =>
        (left.1.map op.answer, left.2)).under r
      (left.1, left.2, r) := by
  rw [hperform, run_map, resolve_run, Outcome.under_map]

theorem perform_run (s : Scope) (op : Op) (r : Reporter) :
    (perform op).run (s, r) =
      let (left, r) := (s.outcome op r).under r
      (left.1, left.2, r) := by
  cases op with
  | assign name kind isConstant line =>
    rw [perform, run_map, assign_run, outcome, Outcome.under_map]
  | lookup name line => exact s.run_resolving r (Functor.map_map ..)
  | lookupKind name line => exact s.run_resolving r (Functor.map_map ..)
  | clear => rfl

theorem candid_outcome (s : Scope) (op : Op) (r : Reporter) : (s.outcome op r).Candid Prod.fst := by
  cases op with
  | assign name kind isConstant line => exact (s.candid_assign name kind isConstant _).map _ fun _ => rfl
  | lookup name line => exact (s.candid_resolve name _).map _ fun _ => rfl
  | lookupKind name line => exact (s.candid_resolve name _).map _ fun _ => rfl
  | clear => exact unescalated_ok _

def told (s : Scope) (op : Op) (r : Reporter) : List Diagnostic :=
  ((perform op).run (s, r)).2.2.delivered.toList.drop r.delivered.size

theorem told_eq (s : Scope) (op : Op) (r : Reporter) : s.told op r = (s.outcome op r).spoken := by
  rw [told, perform_run, Outcome.delivered_under, ← Array.length_toList, List.drop_left]

-- ---------------------------------------------------------------------------
-- What one call does
-- ---------------------------------------------------------------------------

/-- What a call can answer and leave. Only an assignment changes a variable that is declared, and
it does so even if it is then refused. -/
inductive Effect (s : Scope) : Op → Except Failure Answer → Scope → Prop where
  | cleared : Effect s .clear (.ok .done) .empty
  | declared (name : String) (hname : op.name? = some name) (hnew : s.get? name = none) :
    Effect s op (.ok (op.answer ⟨s.count, op.kind, name, op.isConstant⟩))
      (s.declare name op.kind op.isConstant)
  | assigned (name : String) (v : Variable) (kind : ValueKind) (hget : s.get? name = some v)
    (hresult : result = .ok (.register v.register) ∨
      v.isConstant = true ∧ ∃ d, result = .error (.escalated d)) :
    Effect s (.assign name kind isConstant line) result (s.use name v kind)
  | found (name : String) (v : Variable) (hname : op.name? = some name) (hread : op.reads = true)
    (hget : s.get? name = some v) : Effect s op (.ok (op.answer v)) s
  | refused (name : String) (hname : op.name? = some name) (hread : op.reads = true)
    (hnew : s.get? name = none) : Effect s op (.error (.escalated d)) s

theorem effect_assign (s : Scope) (name : String) (kind : ValueKind) (isConstant : Bool)
    (line : UInt32) (r : Reporter) :
    let run := (perform (.assign name kind isConstant line)).run (s, r)
    Effect s (.assign name kind isConstant line) run.1 run.2.1 := by
  simp only [perform, run_map, assign_run, assignOutcome]
  cases hget : s.get? name with
  | none => exact Effect.declared name rfl hget
  | some v =>
    by_cases hconst : v.isConstant
    · cases hstrict : r.strict with
      | true =>
        simp only [hconst, hstrict, Outcome.under, if_true]
        exact .assigned name v kind hget (.inr ⟨hconst, _, rfl⟩)
      | false =>
        simp only [hconst, hstrict, Outcome.under, if_true, Bool.false_eq_true, if_false]
        exact .assigned name v kind hget (.inl rfl)
    · simp only [hconst, Outcome.under, Bool.false_eq_true, if_false]
      exact .assigned name v kind hget (.inl rfl)

theorem effect_resolve (s : Scope) (r : Reporter) (line : UInt32) (hname : op.name? = some name)
    (hread : op.reads = true) (hperform : perform op = op.answer <$> resolve name line) :
    Effect s op ((perform op).run (s, r)).1 ((perform op).run (s, r)).2.1 := by
  simp only [hperform, run_map, resolve_run, resolveOutcome]
  cases hget : s.get? name with
  | some v => exact .found name v hname hread hget
  | none =>
    cases hstrict : r.strict with
    | true =>
      simp only [hstrict, Outcome.under, if_true]
      exact .refused name hname hread hget
    | false =>
      simp only [hstrict, Outcome.under, Bool.false_eq_true, if_false]
      obtain ⟨hkind, hconst⟩ := Op.declares_string hread
      rw [← hkind, ← hconst]
      exact .declared name hname hget

theorem effect_perform (s : Scope) (op : Op) (r : Reporter) :
    Effect s op ((perform op).run (s, r)).1 ((perform op).run (s, r)).2.1 := by
  cases op with
  | assign name kind isConstant line => exact s.effect_assign name kind isConstant line r
  | lookup name line => exact s.effect_resolve r line rfl rfl (Functor.map_map ..)
  | lookupKind name line => exact s.effect_resolve r line rfl rfl (Functor.map_map ..)
  | clear => exact .cleared

theorem Effect.escalated (h : Effect s op (.error e) s') : ∃ d, e = .escalated d := by
  cases h with
  | assigned _ _ _ _ hresult =>
    rcases hresult with hok | ⟨-, d, hd⟩
    · cases hok
    · cases hd
      exact ⟨d, rfl⟩
  | refused => exact ⟨_, rfl⟩

-- ---------------------------------------------------------------------------
-- Calls since a scope was cleared
-- ---------------------------------------------------------------------------

structure Call where
  op : Op
  result : Except Failure Answer

/-- Each call has a reporter of its own, so it may be one that stops at diagnostics. Refused calls are
noted as well. -/
def noteCall (s : Scope) (step : Op × Reporter) : Scope × Option (List Call) :=
  let (result, scope, _) := (perform step.1).run (s, step.2)
  (scope, if step.1 = .clear then none else some [⟨step.1, result⟩])

theorem effect_serve (h : History Scope Call) (step : Op × Reporter) :
    ∃ result, Effect h.state step.1 result (h.serve noteCall step).state ∧
      (h.serve noteCall step).log = if step.1 = .clear then [] else h.log ++ [⟨step.1, result⟩] := by
  refine ⟨_, h.state.effect_perform step.1 step.2, ?_⟩
  by_cases hop : step.1 = .clear
  · rw [if_pos hop]
    exact History.log_serve_of_none (if_pos hop)
  · rw [if_neg hop]
    exact History.log_serve_of_some (if_neg hop)

theorem after_related {R : Scope → Scope → Prop} (hrefl : ∀ s, R s s)
    (htrans : ∀ {s t u}, R s t → R t u → R s u)
    (hcall : ∀ {s op result s'}, Effect s op result s' → op ≠ .clear → R s s')
    (h : History Scope Call) {later : List (Op × Reporter)} (hlater : ∀ step ∈ later, step.1 ≠ .clear) :
    R h.state (h.after noteCall later).state := by
  induction later generalizing h with
  | nil => exact hrefl _
  | cons step later ih =>
    obtain ⟨hstep, hlater⟩ := List.forall_mem_cons.mp hlater
    obtain ⟨_, heffect, -⟩ := effect_serve h step
    exact htrans (hcall heffect hstep) (ih (h.serve noteCall step) hlater)

end Scope

end ScriptBackend
