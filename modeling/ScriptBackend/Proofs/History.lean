/-!
# Histories

What a table holds is explained by what it was asked for since it was last empty. A
history is a state with a log of that. How a state takes a request and what is noted
of it differ from table to table, and are a parameter here.
-/

namespace ScriptBackend

structure History (State Note : Type) where
  state : State
  log : List Note

namespace History

variable {State Note Request : Type}

def fresh (s : State) : History State Note := ⟨s, []⟩

/-- A request adds its notes to the log, or begins a new one if it has none because it emptied the
state. -/
def serve (respond : State → Request → State × Option (List Note)) (h : History State Note)
    (request : Request) : History State Note :=
  let (state, notes?) := respond h.state request
  ⟨state, notes?.elim [] (h.log ++ ·)⟩

def after (respond : State → Request → State × Option (List Note)) (h : History State Note)
    (requests : List Request) : History State Note :=
  requests.foldl (serve respond) h

variable {respond : State → Request → State × Option (List Note)}

@[simp] theorem after_nil (h : History State Note) : h.after respond [] = h := rfl

@[simp] theorem after_cons (h : History State Note) (request : Request) (requests : List Request) :
    h.after respond (request :: requests) = (h.serve respond request).after respond requests := rfl

@[simp] theorem after_append (h : History State Note) (requests later : List Request) :
    h.after respond (requests ++ later) = (h.after respond requests).after respond later :=
  List.foldl_append

theorem after_induction {P : History State Note → Prop} {h : History State Note} (hstart : P h)
    (hserve : ∀ h request, P h → P (h.serve respond request)) (requests : List Request) :
    P (h.after respond requests) :=
  List.foldlRecOn requests (serve respond) hstart fun h hh request _ => hserve h request hh

theorem log_serve_of_some {h : History State Note} (hnotes : (respond h.state request).2 = some notes) :
    (h.serve respond request).log = h.log ++ notes := by
  simp only [serve, hnotes, Option.elim_some]

theorem log_serve_of_none {h : History State Note} (hnotes : (respond h.state request).2 = none) :
    (h.serve respond request).log = [] := by
  simp only [serve, hnotes, Option.elim_none]

theorem state_after {step : State → Request → State} (h : History State Note)
    (hstep : ∀ s request, (respond s request).1 = step s request) (requests : List Request) :
    (h.after respond requests).state = requests.foldl step h.state := by
  induction requests generalizing h with
  | nil => rfl
  | cons request requests ih =>
    rw [after_cons, ih, List.foldl_cons, ← hstep]
    rfl

end History

end ScriptBackend
