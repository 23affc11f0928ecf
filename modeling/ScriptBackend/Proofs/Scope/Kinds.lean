import ScriptBackend.Proofs.Scope.Registers
import ScriptBackend.Proofs.Text

/-!
# Kinds

The kind of a variable is worked out call by call, but it does not depend on the
order of the calls: it is the one kind that all references to the name speak for,
and unconstrained if they disagree. Constancy is that of the first reference.

What is said of a name follows from its references as well. All of this is about
calls that no diagnostic stops.
-/

namespace ScriptBackend

open Text (SameName)

-- ---------------------------------------------------------------------------
-- Joins
-- ---------------------------------------------------------------------------

namespace ValueKind

@[simp] theorem join_self (k : ValueKind) : join k k = k := if_pos rfl

theorem join_of_ne {known used : ValueKind} (h : used ≠ known) : join known used = .unconstrained :=
  if_neg h

@[simp] theorem unconstrained_join (used : ValueKind) : join .unconstrained used = .unconstrained := by
  by_cases h : used = .unconstrained
  · rw [h, join_self]
  · exact join_of_ne h

theorem join_eq_self_iff {known used : ValueKind} :
    join known used = known ↔ used = known ∨ known = .unconstrained := by
  by_cases h : used = known
  · simp [h]
  · simp [join_of_ne h, h, eq_comm]

theorem foldl_join (known : ValueKind) (used : List ValueKind) :
    used.foldl join known = if ∀ k ∈ used, k = known then known else .unconstrained := by
  induction used generalizing known with
  | nil => simp
  | cons k used ih =>
    rw [List.foldl_cons, ih]
    by_cases hk : k = known
    · subst hk
      simp
    · simp [join_of_ne hk, hk]

/-- What is known where some kinds were given: the kind that they all are, or nothing. -/
structure Joins (given : List ValueKind) (known : ValueKind) : Prop where
  agreed : ∀ kind, (∀ k ∈ given, k = kind) → known = kind
  conflicting : (∀ kind, ∃ k ∈ given, k ≠ kind) → known = .unconstrained

theorem joins_foldl (first : ValueKind) (rest : List ValueKind) :
    Joins (first :: rest) (rest.foldl join first) where
  agreed kind h := by
    obtain ⟨rfl, hrest⟩ := List.forall_mem_cons.mp h
    rw [foldl_join, if_pos hrest]
  conflicting h := by
    rw [foldl_join, if_neg]
    intro hrest
    have hall : ∀ k ∈ first :: rest, k = first := List.forall_mem_cons.mpr ⟨rfl, hrest⟩
    obtain ⟨k, hk, hne⟩ := h first
    exact hne (hall k hk)

theorem Joins.ne_nil (h : Joins given known) : given ≠ [] := by
  rintro rfl
  have hall : ∀ kind, ∀ k ∈ ([] : List ValueKind), k = kind := by simp
  cases (h.agreed .string (hall .string)).symm.trans (h.agreed .float (hall .float))

theorem Joins.unique (h : Joins given known) (h' : Joins given' known')
    (hmem : ∀ k, k ∈ given ↔ k ∈ given') : known = known' := by
  by_cases hagreed : ∃ kind, ∀ k ∈ given, k = kind
  · obtain ⟨kind, hkind⟩ := hagreed
    rw [h.agreed kind hkind, h'.agreed kind fun k hk => hkind k ((hmem k).mpr hk)]
  · have hconflict : ∀ kind, ∃ k ∈ given, k ≠ kind := by simpa using hagreed
    have hconflict' : ∀ kind, ∃ k ∈ given', k ≠ kind := by simpa only [hmem] using hconflict
    rw [h.conflicting hconflict, h'.conflicting hconflict']

end ValueKind

-- ---------------------------------------------------------------------------
-- What is said of a name
-- ---------------------------------------------------------------------------

namespace Diagnostic

def Repeats (d e : Diagnostic) : Prop := d.kind = e.kind ∧ SameName d.message e.message

instance (d e : Diagnostic) : Decidable (Repeats d e) :=
  inferInstanceAs (Decidable (_ ∧ _))

def count (e : Diagnostic) (ds : List Diagnostic) : Nat := ds.countP fun d => Repeats d e

@[simp] theorem count_nil (e : Diagnostic) : count e [] = 0 := rfl

theorem count_append (e : Diagnostic) (ds later : List Diagnostic) :
    count e (ds ++ later) = count e ds + count e later := List.countP_append

@[simp] theorem count_singleton (e d : Diagnostic) : count e [d] = if Repeats d e then 1 else 0 := by
  simp [count, List.countP_singleton]

@[simp] theorem reassigned_repeats : Repeats (reassigned a l) (reassigned b l') ↔ SameName a b := by
  simp [Repeats, reassigned, SameName]

@[simp] theorem undeclared_repeats : Repeats (undeclared a l) (undeclared b l') ↔ SameName a b := by
  simp [Repeats, undeclared, SameName]

@[simp] theorem not_undeclared_repeats_reassigned : ¬ Repeats (undeclared a l) (reassigned b l') := by
  rintro ⟨hkind, -⟩
  cases hkind

@[simp] theorem not_reassigned_repeats_undeclared : ¬ Repeats (reassigned a l) (undeclared b l') := by
  rintro ⟨hkind, -⟩
  cases hkind

end Diagnostic

namespace Scope

-- ---------------------------------------------------------------------------
-- References to a name
-- ---------------------------------------------------------------------------

namespace Op

def refersTo (name : String) (op : Op) : Bool :=
  op.name?.any fun spelling => SameName spelling name

def assigned? : Op → Option ValueKind
  | .assign _ kind .. => some kind
  | _ => none

theorem assigned?_of_reads {op : Op} (h : op.reads = true) : op.assigned? = none := by
  cases op with
  | assign => cases h
  | lookup | lookupKind | clear => rfl

end Op

def uses (name : String) (ops : List Op) : List Op := ops.filter (·.refersTo name)

def assignments (ops : List Op) : List ValueKind := ops.filterMap Op.assigned?

/-- The kinds for which the references to a name speak: every one that is assigned, and that of a
string if the name was read first. -/
def evidence (uses : List Op) : List ValueKind :=
  (if uses.head?.any Op.reads then [.string] else []) ++ assignments uses

theorem uses_cons (name : String) (op : Op) (ops : List Op) :
    uses name (op :: ops) = (if op.refersTo name then [op] else []) ++ uses name ops := by
  rw [uses, List.filter_cons]
  split <;> rfl

theorem assignments_append (ops : List Op) (op : Op) :
    assignments (ops ++ [op]) = assignments ops ++ op.assigned?.toList := by
  rw [assignments, List.filterMap_append, List.filterMap_cons]
  cases op.assigned? <;> rfl

theorem evidence_cons {first : Op} (hname : first.name? = some name) (rest : List Op) :
    evidence (first :: rest) = first.kind :: assignments rest := by
  cases first with
  | clear => cases hname
  | assign | lookup | lookupKind => rfl

-- ---------------------------------------------------------------------------
-- Calls that nothing stops
-- ---------------------------------------------------------------------------

/-- What a call leaves and says if nothing stops it. -/
inductive Unstopped (s : Scope) : Op → Scope → List Diagnostic → Prop where
  | declared (name : String) (hname : op.name? = some name) (hnew : s.get? name = none)
    (location : Option Location) :
    Unstopped s op (s.declare name op.kind op.isConstant)
      (if op.reads then [.undeclared name location] else [])
  | assigned (name : String) (v : Variable) (kind : ValueKind) (hget : s.get? name = some v)
    (location : Option Location) :
    Unstopped s (.assign name kind isConstant line) (s.use name v kind)
      (if v.isConstant then [.reassigned name location] else [])
  | found (name : String) (v : Variable) (hname : op.name? = some name) (hread : op.reads = true)
    (hget : s.get? name = some v) : Unstopped s op s []

theorem unstopped_assign (s : Scope) (name : String) (kind : ValueKind) (isConstant : Bool)
    (line : UInt32) (hr : r.strict = false) :
    Unstopped s (.assign name kind isConstant line)
      ((s.outcome (.assign name kind isConstant line) r).under r).1.2
      (s.outcome (.assign name kind isConstant line) r).spoken := by
  rw [outcome, assignOutcome]
  cases hget : s.get? name with
  | none => exact Unstopped.declared name rfl hget none
  | some v =>
    have hassigned : Unstopped s (.assign name kind isConstant line) _ _ :=
      .assigned name v kind hget (r.location line)
    cases hconst : v.isConstant <;>
      simpa [hconst, hr, Outcome.map, Outcome.under, Outcome.spoken] using hassigned

theorem unstopped_resolve (s : Scope) {op : Op} (hname : op.name? = some name)
    (hread : op.reads = true) (hr : r.strict = false) (location : Option Location)
    (houtcome : s.outcome op r = (s.resolveOutcome name location).map fun left =>
      (left.1.map op.answer, left.2)) :
    Unstopped s op ((s.outcome op r).under r).1.2 (s.outcome op r).spoken := by
  rw [houtcome, resolveOutcome]
  cases hget : s.get? name with
  | some v => exact Unstopped.found name v hname hread hget
  | none =>
    obtain ⟨hkind, hconst⟩ := Op.declares_string hread
    have hdeclared := Unstopped.declared name hname hget location
    rw [hkind, hconst, hread] at hdeclared
    simpa [hr, Outcome.map, Outcome.under, Outcome.spoken] using hdeclared

theorem unstopped_perform (s : Scope) (hop : op ≠ .clear) (hr : r.strict = false) :
    Unstopped s op ((perform op).run (s, r)).2.1 (s.told op r) := by
  rw [told_eq, perform_run]
  cases op with
  | assign name kind isConstant line => exact s.unstopped_assign name kind isConstant line hr
  | lookup name line => exact s.unstopped_resolve rfl rfl hr _ rfl
  | lookupKind name line => exact s.unstopped_resolve rfl rfl hr _ rfl
  | clear => exact absurd rfl hop

-- ---------------------------------------------------------------------------
-- One name through a run
-- ---------------------------------------------------------------------------

/-- What the references to a name make of its variable, with how often a constant was then
assigned again and how often the name was undeclared. -/
inductive Tally : List Op → Option Variable → Nat → Nat → Prop where
  | unseen : Tally [] none 0 0
  | seen (first : Op) (rest : List Op) (v : Variable) (hfirst : first.name? = some name)
    (hkind : v.kind = (assignments rest).foldl ValueKind.join first.kind)
    (hconstant : v.isConstant = first.isConstant) :
    Tally (first :: rest) (some v) (if v.isConstant then (assignments rest).length else 0)
      (if first.reads then 1 else 0)

theorem Tally.declare (h : Tally us none again undeclared) (hname : op.name? = some name)
    (register : UInt32) :
    Tally (us ++ [op]) (some ⟨register, op.kind, name, op.isConstant⟩) again
      (undeclared + if op.reads then 1 else 0) := by
  cases h with
  | unseen =>
    simpa [assignments] using
      Tally.seen op [] ⟨register, op.kind, name, op.isConstant⟩ hname rfl rfl

theorem Tally.assign (h : Tally us (some v) again undeclared) (hop : op.assigned? = some kind) :
    Tally (us ++ [op]) (some { v with kind := v.kind.join kind })
      (again + if v.isConstant then 1 else 0) undeclared := by
  cases h with
  | seen first rest _ hfirst hkind hconstant =>
    have hassignments : assignments (rest ++ [op]) = assignments rest ++ [kind] := by
      rw [assignments_append, hop, Option.toList_some]
    have hseen := Tally.seen first (rest ++ [op]) { v with kind := v.kind.join kind } hfirst
      (by rw [hassignments, List.foldl_append, ← hkind]; rfl) hconstant
    rw [hassignments, List.length_append] at hseen
    cases hconst : v.isConstant <;> simpa [hconst] using hseen

theorem Tally.read (h : Tally us (some v) again undeclared) (hop : op.assigned? = none) :
    Tally (us ++ [op]) (some v) again undeclared := by
  cases h with
  | seen first rest _ hfirst hkind hconstant =>
    have hassignments : assignments (rest ++ [op]) = assignments rest := by
      rw [assignments_append, hop, Option.toList_none, List.append_nil]
    rw [← hassignments] at hkind ⊢
    exact .seen first (rest ++ [op]) v hfirst hkind hconstant

theorem refersTo_eq {op : Op} (hop : op.name? = some spelling) (name : String) :
    op.refersTo name = decide (SameName spelling name) := by
  rw [Op.refersTo, hop, Option.any_some]

theorem Unstopped.tally (h : Unstopped s op s' ds) (name : String)
    (ht : Tally us (s.get? name) again undeclared) :
    Tally (us ++ if op.refersTo name then [op] else []) (s'.get? name)
      (again + Diagnostic.count (.reassigned name none) ds)
      (undeclared + Diagnostic.count (.undeclared name none) ds) := by
  cases h with
  | declared spelling hname hnew location =>
    rw [refersTo_eq hname, get?_declare_of]
    by_cases hsame : SameName spelling name
    · rw [← s.get?_congr hsame, hnew] at ht
      have hdeclared := ht.declare hname s.count
      cases hread : op.reads <;> simpa [hsame, hread] using hdeclared
    · cases op.reads <;> simpa [hsame] using ht
  | @assigned isConstant line spelling v kind hget location =>
    rw [refersTo_eq rfl, get?_use]
    by_cases hsame : SameName spelling name
    · rw [← s.get?_congr hsame, hget] at ht
      have hop : (Op.assign spelling kind isConstant line).assigned? = some kind := rfl
      have hassigned := ht.assign hop
      cases hconst : v.isConstant <;> simpa [hsame, hconst] using hassigned
    · cases v.isConstant <;> simpa [hsame] using ht
  | found spelling v hname hread hget =>
    rw [refersTo_eq hname]
    by_cases hsame : SameName spelling name
    · rw [← s.get?_congr hsame, hget] at ht ⊢
      simpa [hsame] using ht.read (Op.assigned?_of_reads hread)
    · simpa [hsame] using ht

def toldAfter (h : History Scope Call) : List (Op × Reporter) → List Diagnostic
  | [] => []
  | step :: steps => h.state.told step.1 step.2 ++ toldAfter (h.serve noteCall step) steps

/-- Calls that no diagnostic stops and that clear nothing. -/
def Lenient (steps : List (Op × Reporter)) : Prop :=
  ∀ step ∈ steps, step.1 ≠ .clear ∧ step.2.strict = false

theorem tally_after (h : History Scope Call) {steps : List (Op × Reporter)} (hsteps : Lenient steps)
    (name : String) (ht : Tally us (h.state.get? name) again undeclared) :
    Tally (us ++ uses name (steps.map (·.1))) ((h.after noteCall steps).state.get? name)
      (again + Diagnostic.count (.reassigned name none) (toldAfter h steps))
      (undeclared + Diagnostic.count (.undeclared name none) (toldAfter h steps)) := by
  induction steps generalizing h us again undeclared with
  | nil => simpa [uses, toldAfter] using ht
  | cons step steps ih =>
    obtain ⟨⟨hop, hlenient⟩, hsteps⟩ := List.forall_mem_cons.mp hsteps
    have hfirst := (h.state.unstopped_perform hop hlenient).tally name ht
    have hrest := ih (h.serve noteCall step) hsteps hfirst
    rw [List.map_cons, uses_cons, toldAfter, Diagnostic.count_append, Diagnostic.count_append,
      ← List.append_assoc, ← Nat.add_assoc, ← Nat.add_assoc]
    exact hrest

theorem tally_of_cleared {h : History Scope Call} (hcleared : h = .fresh empty)
    {steps : List (Op × Reporter)} (hsteps : Lenient steps) (name : String) :
    Tally (uses name (steps.map (·.1))) ((h.after noteCall steps).state.get? name)
      (Diagnostic.count (.reassigned name none) (toldAfter h steps))
      (Diagnostic.count (.undeclared name none) (toldAfter h steps)) := by
  have hunseen : Tally [] (h.state.get? name) 0 0 := hcleared ▸ Tally.unseen
  simpa using tally_after h hsteps name hunseen

/-- What the references to a name come to: its variable and what was said of the name. -/
structure Profile (name : String) (us : List Op) (ds : List Diagnostic) (v : Variable) : Prop where
  kind : ValueKind.Joins (evidence us) v.kind
  constancy : us.head?.map Op.isConstant = some v.isConstant
  reassigned : Diagnostic.count (.reassigned name none) ds =
    if v.isConstant then (assignments us).tail.length else 0
  undeclared : Diagnostic.count (.undeclared name none) ds = if us.head?.any Op.reads then 1 else 0

theorem Tally.profile (h : Tally us (some v) (Diagnostic.count (.reassigned name none) ds)
    (Diagnostic.count (.undeclared name none) ds)) : Profile name us ds v := by
  generalize hagain : Diagnostic.count (.reassigned name none) ds = again at h
  generalize hundeclared : Diagnostic.count (.undeclared name none) ds = undeclared at h
  cases h with
  | seen first rest _ hfirst hkind hconstant =>
    refine ⟨?_, congrArg some hconstant.symm, ?_, ?_⟩
    · rw [evidence_cons hfirst, hkind]
      exact ValueKind.joins_foldl first.kind (assignments rest)
    · rw [hagain]
      cases first with
      | assign => rfl
      | lookup | lookupKind | clear => simp [hconstant, Op.isConstant]
    · rw [hundeclared]
      rfl

theorem Tally.eq_none_iff (h : Tally us v? again undeclared) : v? = none ↔ us = [] := by
  cases h <;> simp

/-- What is declared stays as constant as it was, and a kind that is lost stays lost. -/
def KeepsConstancy (s s' : Scope) : Prop :=
  ∀ name v, s.get? name = some v →
    ∃ v', s'.get? name = some v' ∧ v'.isConstant = v.isConstant ∧
      (v.kind = .unconstrained → v'.kind = .unconstrained)

theorem KeepsConstancy.refl (s : Scope) : KeepsConstancy s s := fun _ v hv => ⟨v, hv, rfl, id⟩

theorem KeepsConstancy.trans (h : KeepsConstancy s t) (h' : KeepsConstancy t u) :
    KeepsConstancy s u := by
  intro name v hv
  obtain ⟨v', hv', hconstant, hkind⟩ := h name v hv
  obtain ⟨v'', hv'', hconstant', hkind'⟩ := h' name v' hv'
  exact ⟨v'', hv'', hconstant'.trans hconstant, fun hlost => hkind' (hkind hlost)⟩

theorem Effect.keepsConstancy (h : Effect s op result s') (hop : op ≠ .clear) :
    KeepsConstancy s s' := by
  intro name v hv
  obtain ⟨kind, hget, hkind⟩ := h.get?_of_some hop hv
  refine ⟨_, hget, rfl, fun hlost => ?_⟩
  rcases hkind with rfl | ⟨used, rfl⟩
  · exact hlost
  · rw [hlost, ValueKind.unconstrained_join]

theorem keepsConstancy_after (h : History Scope Call) {later : List (Op × Reporter)}
    (hlater : ∀ step ∈ later, step.1 ≠ .clear) : KeepsConstancy h.state (h.after noteCall later).state :=
  after_related KeepsConstancy.refl KeepsConstancy.trans Effect.keepsConstancy h hlater

theorem after_clear (h : History Scope Call) (earlier : List (Op × Reporter)) (r : Reporter) :
    h.after noteCall (earlier ++ [(.clear, r)]) = .fresh empty := by
  rw [History.after_append]
  rfl

/-- Since a scope was cleared, and while no diagnostic stops a call, a variable's kind is that for
which all references to its name speak, in whatever order, and unconstrained if they differ. It is
as constant as its first reference made it, and what is said of it is counted by its references. -/
theorem kind_joins_uses (earlier since : List (Op × Reporter)) (r : Reporter)
    (hsince : Lenient since) (name : String) :
    let start := (History.fresh empty).after noteCall (earlier ++ [(.clear, r)])
    let now := start.after noteCall since
    let us := uses name (since.map (·.1))
    (now.state.get? name = none ↔ us = []) ∧
      ∀ v, now.state.get? name = some v →
        Profile name us (toldAfter start since) v ∧
        (∀ other, Lenient other → (evidence (uses name (other.map (·.1)))).Perm (evidence us) →
          ((start.after noteCall other).state.get? name).map (·.kind) = some v.kind) ∧
        ∀ later, (∀ step ∈ later, step.1 ≠ .clear) →
          ∃ v', (now.after noteCall later).state.get? name = some v' ∧ v'.isConstant = v.isConstant ∧
            (v.kind = .unconstrained → v'.kind = .unconstrained) := by
  intro start now us
  have hcleared : start = .fresh empty := after_clear _ earlier r
  have htally := tally_of_cleared hcleared hsince name
  refine ⟨htally.eq_none_iff, ?_⟩
  intro v hv
  have hprofile : Profile name us (toldAfter start since) v := Tally.profile (hv ▸ htally)
  refine ⟨hprofile, ?_, fun later hlater => keepsConstancy_after now hlater name v hv⟩
  intro other hother hperm
  -- something speaks for the kind of the name, so the other calls refer to it as well
  have htally' := tally_of_cleared hcleared hother name
  cases hv' : (start.after noteCall other).state.get? name with
  | none =>
    rw [htally'.eq_none_iff.mp hv'] at hperm
    exact absurd hperm.nil_eq.symm hprofile.kind.ne_nil
  | some v' =>
    have hkind' := (Tally.profile (hv' ▸ htally')).kind
    exact congrArg some (hkind'.unique hprofile.kind fun k => hperm.mem_iff)

/-- A constant and a name that is read first, both spelled in several ways. -/
def sampleUses : List (Op × Reporter) :=
  [(.assign "Limit" .unsigned true 1, .new false), (.lookupKind "index" 2, .new false),
    (.assign "LIMIT" .unsigned false 3, .new false), (.assign "INDEX" .string true 4, .new false),
    (.assign "limit" .float true 5, .new false), (.lookup "Limit" 6, .new false)]

theorem sampleUses_joined :
    let start := (History.fresh empty).after noteCall
      [(.lookup "limit" 1, .new true), (.clear, .new true)]
    let now := start.after noteCall sampleUses
    Lenient sampleUses ∧
      Profile "lImIt" (uses "lImIt" (sampleUses.map (·.1))) (toldAfter start sampleUses)
        ⟨0, .unconstrained, "Limit", true⟩ ∧
      ((start.after noteCall (sampleUses.take 1 ++ (sampleUses.drop 1).reverse)).state.get? "lImIt").map
        (·.kind) = some .unconstrained ∧
      ∃ v, (now.after noteCall [(.assign "limit" .float false 7, .new true)]).state.get? "lImIt" = some v ∧
        v.isConstant = true := by
  intro start now
  have hlenient : Lenient sampleUses := by
    unfold Lenient
    decide
  have hreversed : Lenient (sampleUses.take 1 ++ (sampleUses.drop 1).reverse) := by
    unfold Lenient
    decide
  have hget : now.state.get? "lImIt" = some ⟨0, .unconstrained, "Limit", true⟩ := by decide +kernel
  obtain ⟨hprofile, hperm, hlater⟩ := (kind_joins_uses [(.lookup "limit" 1, .new true)] sampleUses
    (.new true) hlenient "lImIt").2 _ hget
  obtain ⟨v, hv, hconstant, -⟩ := hlater [(.assign "limit" .float false 7, .new true)] (by decide)
  exact ⟨hlenient, hprofile, hperm _ hreversed (by decide +kernel), v, hv, hconstant⟩

end Scope

end ScriptBackend
