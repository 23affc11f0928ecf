import ScriptBackend.Proofs.Scope.Kinds

/-!
# Calls that a diagnostic stops

A read that is stopped has changed nothing. An assignment to a constant is stopped
only after its kind has been joined, so it can leave a variable of which nothing is
known any more; all else about the variables is as it was.
-/

namespace ScriptBackend.Scope

open Text (SameName fold)

/-- The operation assigns a variable another kind than is known of it. -/
def Op.Degrades (op : Op) (s : Scope) : Prop :=
  ∃ name kind isConstant line v, op = .assign name kind isConstant line ∧
    s.get? name = some v ∧ kind ≠ v.kind ∧ v.kind ≠ .unconstrained

theorem degrades_assign_iff {s : Scope} {v : Variable} (hget : s.get? name = some v) :
    (Op.assign name kind isConstant line).Degrades s ↔
      kind ≠ v.kind ∧ v.kind ≠ .unconstrained := by
  constructor
  · rintro ⟨_, _, _, _, w, hop, hw, hkinds⟩
    cases hop
    rw [hget] at hw
    cases hw
    exact hkinds
  · exact fun hkinds => ⟨name, kind, isConstant, line, v, rfl, hget, hkinds⟩

theorem not_degrades_of_reads {op : Op} (h : op.reads = true) (s : Scope) : ¬ op.Degrades s := by
  rintro ⟨_, _, _, _, _, rfl, -⟩
  cases h

theorem use_eq_self_iff {s : Scope} {v : Variable} (hget : s.get? name = some v) (kind : ValueKind) :
    s.use name v kind = s ↔ kind = v.kind ∨ v.kind = .unconstrained := by
  rw [← ValueKind.join_eq_self_iff]
  constructor
  · intro hself
    have hused : (s.use name v kind).get? name = some { v with kind := v.kind.join kind } :=
      (s.get?_use ..).trans (if_pos rfl)
    rw [hself, hget, Option.some.injEq] at hused
    exact (congrArg Variable.kind hused).symm
  · intro hkind
    have hinsert : s.byName.insert (fold name) v = s.byName := by
      apply Std.ExtTreeMap.ext_getElem?
      intro key
      rw [Std.ExtTreeMap.getElem?_insert]
      split
      · rename_i hkey
        rw [← Std.compare_eq_iff_eq.mp hkey]
        exact hget.symm
      · rfl
    rw [use, hkind, hinsert]

def untyped (v : Variable) : Variable := { v with kind := .unconstrained }

theorem untyped_use {s : Scope} {v : Variable} (hget : s.get? name = some v) (kind : ValueKind)
    (other : String) : ((s.use name v kind).get? other).map untyped = (s.get? other).map untyped := by
  rw [get?_use]
  by_cases hsame : SameName name other
  · rw [if_pos hsame, ← s.get?_congr hsame, hget]
    rfl
  · rw [if_neg hsame]

/-- A call that fails is a read of a name never seen, or an assignment to a constant, which has
joined its kind by then. -/
theorem Effect.of_error (h : Effect s op (.error e) s') :
    op.reads = true ∧ s' = s ∨
      ∃ name kind isConstant line v, op = .assign name kind isConstant line ∧
        s.get? name = some v ∧ v.isConstant = true ∧ s' = s.use name v kind := by
  cases h with
  | assigned name v kind hget hresult =>
    rcases hresult with hok | ⟨hconstant, -⟩
    · cases hok
    · exact .inr ⟨name, kind, _, _, v, rfl, hget, hconstant, rfl⟩
  | refused _ _ hread _ => exact .inl ⟨hread, rfl⟩

theorem delivered_of_error (s : Scope) (op : Op) (r : Reporter)
    (hfail : ((perform op).run (s, r)).1 = .error e) :
    r.strict = true ∧ ∃ d, e = .escalated d ∧ ((perform op).run (s, r)).2.2 = r.deliver d := by
  have heffect := s.effect_perform op r
  rw [hfail] at heffect
  obtain ⟨d, rfl⟩ := heffect.escalated
  rw [perform_run] at hfail ⊢
  obtain ⟨hstrict, hdelivered⟩ := (s.candid_outcome op r).of_escalated hfail
  exact ⟨hstrict, d, rfl, hdelivered⟩

/-- A call that a diagnostic stops leaves the scope as it was, unless it assigns a constant another
kind than is known of it. Names, registers and constancy stay in any case, and the reporter has
that one diagnostic more. -/
theorem failed_call_keeps_scope_iff (s : Scope) (op : Op) (r : Reporter)
    (hfail : ((perform op).run (s, r)).1 = .error e) :
    let left := ((perform op).run (s, r)).2
    (left.1 = s ↔ ¬ op.Degrades s) ∧
      left.1.order = s.order ∧
      (∀ name, (left.1.get? name).map untyped = (s.get? name).map untyped) ∧
      r.strict = true ∧ ∃ d, e = .escalated d ∧ left.2 = r.deliver d := by
  intro left
  have heffect : Effect s op (.error e) left.1 := hfail ▸ s.effect_perform op r
  have hreported := s.delivered_of_error op r hfail
  rcases heffect.of_error with ⟨hread, hscope⟩ | ⟨name, kind, isConstant, line, v, rfl, hget, -, hscope⟩
  · rw [hscope]
    exact ⟨iff_of_true rfl (not_degrades_of_reads hread s), rfl, fun _ => rfl, hreported⟩
  · rw [hscope]
    refine ⟨?_, rfl, untyped_use hget kind, hreported⟩
    rw [use_eq_self_iff hget, degrades_assign_iff hget, Decidable.not_and_iff_not_or_not,
      Decidable.not_not, Decidable.not_not]

def sampleConstant : Scope :=
  ((History.fresh empty).after noteCall [(.assign "limit" .unsigned true 1, .new true)]).state

theorem sampleConstant_keeps_kind :
    let run := (perform (.assign "LIMIT" .unsigned false 2)).run (sampleConstant, .new true)
    run.1 = .error (.escalated (.reassigned "LIMIT" none)) ∧ run.2.1 = sampleConstant := by
  intro run
  have hfail : run.1 = .error (.escalated (.reassigned "LIMIT" none)) := rfl
  have hget : sampleConstant.get? "LIMIT" = some ⟨0, .unsigned, "limit", true⟩ := by decide +kernel
  refine ⟨hfail, (failed_call_keeps_scope_iff sampleConstant _ (.new true) hfail).1.mpr ?_⟩
  rw [degrades_assign_iff hget]
  exact fun hkinds => hkinds.1 rfl

/-- The assignment is refused, and yet the constant's kind is lost. -/
theorem refused_assignment_loses_kind :
    let run := (perform (.assign "limit" .string false 2)).run (sampleConstant, .new true)
    run.1 = .error (.escalated (.reassigned "limit" none)) ∧
      sampleConstant.get? "limit" = some ⟨0, .unsigned, "limit", true⟩ ∧
      run.2.1.get? "limit" = some ⟨0, .unconstrained, "limit", true⟩ :=
  ⟨rfl, by decide +kernel, by decide +kernel⟩

end ScriptBackend.Scope
