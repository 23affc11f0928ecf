import ScriptBackend.Code.Buffer
import ScriptBackend.Image.Link

/-!
# Linking reaches its target

`Alike` compares two codes of one shape that may differ at some hidden places.
Patching both keeps them alike. A handle that is stored where the other code holds
it uncovers two places, and when nothing is hidden any more the codes are equal.
-/

namespace ScriptBackend

variable {hidden : Nat → Prop}

namespace FlatCode

structure Alike (f g : FlatCode) (hidden : Nat → Prop) : Prop where
  codeLength : f.codeLength = g.codeLength
  words : ∀ n, ¬ hidden n → f.buffer[n]? = g.buffer[n]?

theorem Alike.mono {hidden' : Nat → Prop} (h : Alike f g hidden)
    (himp : ∀ n, hidden n → hidden' n) : Alike f g hidden' :=
  ⟨h.codeLength, fun n hn => h.words n fun hhidden => hn (himp n hhidden)⟩

theorem Alike.eq (h : Alike f g fun _ => False) : f = g := by
  obtain ⟨buffer, codeLength, hle⟩ := f
  obtain ⟨buffer', codeLength', hle'⟩ := g
  obtain ⟨hlength, hwords⟩ := h
  have hbuffer : buffer = buffer' := Array.ext_getElem? fun n => hwords n id
  simp only at hlength
  subst hlength hbuffer
  rfl

-- ---------------------------------------------------------------------------
-- Patches
-- ---------------------------------------------------------------------------

theorem set?_of_lt {f : FlatCode} (hi : i < f.codeLength) (w : Word) :
    ∃ f', f.set? i w = some f' ∧ f'.codeLength = f.codeLength ∧
      ∀ n, f'.buffer[n]? = if n = i then some w else f.buffer[n]? := by
  have hsize : i < f.buffer.size := Nat.lt_of_lt_of_le hi f.codeLength_le
  refine ⟨_, if_pos hi, rfl, ?_⟩
  intro n
  simp only [Array.getElem?_setIfInBounds]
  grind

theorem Alike.applyPatch (h : Alike f g hidden) (p : Patch) :
    (∃ e, CodeBuffer.applyPatch f p = .error e ∧ CodeBuffer.applyPatch g p = .error e) ∨
      ∃ f' g', CodeBuffer.applyPatch f p = .ok f' ∧ CodeBuffer.applyPatch g p = .ok g' ∧
        Alike f' g' hidden ∧ g'.codeLength = g.codeLength ∧
        ∀ n, n ≠ p.address.toNat → g'.buffer[n]? = g.buffer[n]? := by
  by_cases hlt : p.address.toNat < g.codeLength
  · obtain ⟨f', hf, hflen, hfwords⟩ := set?_of_lt (f := f) (h.codeLength ▸ hlt) p.value
    obtain ⟨g', hg, hglen, hgwords⟩ := set?_of_lt hlt p.value
    refine .inr ⟨f', g', by rw [CodeBuffer.applyPatch, hf], by rw [CodeBuffer.applyPatch, hg], ?_,
      hglen, ?_⟩
    · refine ⟨by rw [hflen, hglen, h.codeLength], ?_⟩
      intro n hn
      rw [hfwords, hgwords, h.words n hn]
    · intro n hn
      rw [hgwords, if_neg hn]
  · have hf : f.set? p.address.toNat p.value = none := if_neg (h.codeLength ▸ hlt)
    have hg : g.set? p.address.toNat p.value = none := if_neg hlt
    refine .inl ⟨_, by rw [CodeBuffer.applyPatch, hf], ?_⟩
    rw [CodeBuffer.applyPatch, hg, h.codeLength]

theorem Alike.foldlM_applyPatch (h : Alike f g hidden) (ps : List Patch) :
    (∃ e, ps.foldlM CodeBuffer.applyPatch f = .error e ∧
      ps.foldlM CodeBuffer.applyPatch g = .error e) ∨
    ∃ f' g', ps.foldlM CodeBuffer.applyPatch f = .ok f' ∧
      ps.foldlM CodeBuffer.applyPatch g = .ok g' ∧ Alike f' g' hidden ∧
      g'.codeLength = g.codeLength ∧
      ∀ n, (∀ p ∈ ps, n ≠ p.address.toNat) → g'.buffer[n]? = g.buffer[n]? := by
  induction ps generalizing f g with
  | nil => exact .inr ⟨f, g, rfl, rfl, h, rfl, fun _ _ => rfl⟩
  | cons p ps ih =>
    simp only [List.foldlM_cons]
    rcases h.applyPatch p with ⟨e, hf, hg⟩ | ⟨f₁, g₁, hf, hg, h₁, hlen₁, hwords₁⟩
    · rw [hf, hg]
      exact .inl ⟨e, rfl, rfl⟩
    · rw [hf, hg]
      rcases ih h₁ with ⟨e, hf, hg⟩ | ⟨f₂, g₂, hf, hg, h₂, hlen₂, hwords₂⟩
      · exact .inl ⟨e, hf, hg⟩
      · refine .inr ⟨f₂, g₂, hf, hg, h₂, hlen₂.trans hlen₁, ?_⟩
        intro n hn
        rw [hwords₂ n fun q hq => hn q (List.mem_cons_of_mem _ hq), hwords₁ n (hn p (by simp))]

-- ---------------------------------------------------------------------------
-- Stores
-- ---------------------------------------------------------------------------

structure Holds (g : FlatCode) (i : Nat) (handle : UInt64) : Prop where
  inside : i + 1 < g.codeLength
  low : g.buffer[i]? = some handle.toUInt32
  high : g.buffer[i + 1]? = some (handle >>> 32).toUInt32

theorem Alike.set? (h : Alike f g hidden) (hi : i < g.codeLength) (hw : g.buffer[i]? = some w) :
    Alike ((f.set? i w).getD f) g fun n => hidden n ∧ n ≠ i := by
  obtain ⟨f', hf, hlen, hwords⟩ := set?_of_lt (f := f) (h.codeLength ▸ hi) w
  rw [hf, Option.getD_some]
  refine ⟨by rw [hlen, h.codeLength], ?_⟩
  intro n hn
  rw [hwords]
  split
  · rename_i heq
    rw [heq, hw]
  · rename_i hne
    exact h.words n fun hhidden => hn ⟨hhidden, hne⟩

theorem Alike.storeHandle (h : Alike f g hidden) (hg : g.Holds address.toNat handle) :
    Alike (f.storeHandle address handle) g
      fun n => hidden n ∧ n ≠ address.toNat ∧ n ≠ address.toNat + 1 := by
  have hlow := h.set? (Nat.lt_of_succ_lt hg.inside) hg.low
  refine (hlow.set? hg.inside hg.high).mono ?_
  rintro n ⟨⟨hhidden, hne⟩, hne'⟩
  exact ⟨hhidden, hne, hne'⟩

/-- Storing every handle that the target holds uncovers all the places they take up. -/
theorem Alike.foldl_storeHandle (h : Alike f g hidden) {stores : List (UInt32 × UInt64)}
    (hg : ∀ x ∈ stores, g.Holds x.1.toNat x.2) :
    Alike (stores.foldl (fun code x => code.storeHandle x.1 x.2) f) g
      fun n => hidden n ∧ ∀ x ∈ stores, n ≠ x.1.toNat ∧ n ≠ x.1.toNat + 1 := by
  induction stores generalizing f hidden with
  | nil => exact h.mono fun n hn => ⟨hn, fun x hx => (nomatch hx)⟩
  | cons x stores ih =>
    have hfirst := h.storeHandle (hg x (by simp))
    refine (ih hfirst fun y hy => hg y (List.mem_cons_of_mem _ hy)).mono ?_
    rintro n ⟨⟨hhidden, hx⟩, hrest⟩
    refine ⟨hhidden, ?_⟩
    intro y hy
    rcases List.mem_cons.mp hy with rfl | hy
    · exact hx
    · exact hrest y hy

end FlatCode

namespace Image

-- ---------------------------------------------------------------------------
-- Handles
-- ---------------------------------------------------------------------------

theorem run_bind_ok {x : ExceptT ε (StateM σ) α} {f : α → ExceptT ε (StateM σ) β}
    (h : x.run.run state = (.ok a, state')) : (x >>= f).run.run state = (f a).run.run state' := by
  rw [ExceptT.run_bind, StateT.run_bind, h]
  rfl

theorem handles_cons {i : Image} (h : i.linkable r = .ok name) (intern : Interner σ)
    (rs : List Reference) (state : σ) :
    (i.handles intern (r :: rs)).run.run state =
      (((i.handles intern rs).run.run ((intern name).run state).2).1.map
          (((intern name).run state).1 :: ·),
        ((i.handles intern rs).run.run ((intern name).run state).2).2) := by
  have hlinkable : (liftM (i.linkable r) : ExceptT Failure (StateM σ) String).run.run state =
      (.ok name, state) := by
    rw [h]
    rfl
  have hintern : (liftM (intern name) : ExceptT Failure (StateM σ) UInt64).run.run state =
      (.ok ((intern name).run state).1, ((intern name).run state).2) := rfl
  rw [handles, run_bind_ok hlinkable, run_bind_ok hintern, ExceptT.run_bind, StateT.run_bind]
  cases (i.handles intern rs).run.run ((intern name).run state).2 with
  | mk rest state' => cases rest <;> rfl

/-- Handles are asked for one after another if every reference can be linked. What is known of
each answer whatever the state of the host is known of all of them. -/
theorem handles_run {i : Image} {intern : Interner σ} {Q : Reference → UInt64 → Prop}
    (h : ∀ r ∈ rs, ∃ name, i.linkable r = .ok name ∧ ∀ state, Q r ((intern name).run state).1)
    (state : σ) :
    ∃ closed : List (Reference × UInt64), closed.map Prod.fst = rs ∧
      (∃ state', (i.handles intern rs).run.run state = (.ok (closed.map Prod.snd), state')) ∧
      ∀ x ∈ closed, Q x.1 x.2 := by
  induction rs generalizing state with
  | nil => exact ⟨[], rfl, ⟨state, rfl⟩, fun x hx => (nomatch hx)⟩
  | cons r rs ih =>
    obtain ⟨name, hname, hq⟩ := h r (by simp)
    obtain ⟨closed, hfst, ⟨state', hrun⟩, hclosed⟩ :=
      ih (fun q hq => h q (List.mem_cons_of_mem _ hq)) ((intern name).run state).2
    refine ⟨(r, ((intern name).run state).1) :: closed, by simp [hfst], ⟨state', ?_⟩, ?_⟩
    · rw [handles_cons hname, hrun]
      rfl
    · intro x hx
      rcases List.mem_cons.mp hx with rfl | hx
      · exact hq state
      · exact hclosed x hx

theorem handles_eq_mapM {i : Image} {name : Reference → String}
    (h : ∀ r ∈ rs, i.linkable r = .ok (name r)) (intern : Interner σ) (state : σ) :
    (i.handles intern rs).run.run state =
      (.ok (((rs.map name).mapM intern).run state).1, (((rs.map name).mapM intern).run state).2) := by
  induction rs generalizing state with
  | nil => rfl
  | cons r rs ih =>
    rw [handles_cons (h r (by simp)), ih fun q hq => h q (List.mem_cons_of_mem _ hq), List.map_cons,
      List.mapM_cons]
    rfl

theorem link_asks {i : Image} {name : Reference → String} (hmode : i.mode = .deferred)
    (h : ∀ r ∈ i.references, i.linkable r = .ok (name r)) (intern : Interner σ) (state : σ) :
    ∃ linked, (i.link intern).run state =
      ((.ok (), linked), (((i.references.map name).mapM intern).run state).2) := by
  simp only [link, hmode, StateT.run_bind, handles_eq_mapM h intern state]
  exact ⟨_, rfl⟩

def stores (closed : List (Reference × UInt64)) : List (UInt32 × UInt64) :=
  closed.flatMap fun x => x.1.addresses.map (·, x.2)

theorem mem_stores : x ∈ stores closed ↔ ∃ c ∈ closed, x.1 ∈ c.1.addresses ∧ x.2 = c.2 := by
  simp only [stores, List.mem_flatMap, List.mem_map]
  constructor
  · rintro ⟨c, hc, a, ha, rfl⟩
    exact ⟨c, hc, ha, rfl⟩
  · rintro ⟨c, hc, ha, hx⟩
    exact ⟨c, hc, x.1, ha, by rw [← hx]⟩

theorem foldl_closeReference (closed : List (Reference × UInt64)) (code : FlatCode) :
    closed.foldl (fun code x => closeReference code x.1 x.2) code =
      (stores closed).foldl (fun code x => code.storeHandle x.1 x.2) code := by
  rw [stores, List.foldl_flatMap]
  simp only [closeReference, List.foldl_map]

/-- Linking reaches a code that is like the image's but for places where references wait, and
that holds the right handles there. -/
theorem link_run {i : Image} {intern : Interner σ} (hmode : i.mode = .deferred)
    (hcode : i.code.Alike g hidden)
    (hlinkable : ∀ r ∈ i.references, ∃ name, i.linkable r = .ok name ∧
      ∀ state, ∀ a ∈ r.addresses, g.Holds a.toNat ((intern name).run state).1)
    (hcover : ∀ n, hidden n →
      ∃ r ∈ i.references, ∃ a ∈ r.addresses, n = a.toNat ∨ n = a.toNat + 1) (state : σ) :
    ∃ linked, ((i.link intern).run state).1 = (.ok (), linked) ∧ linked.code = g := by
  obtain ⟨closed, hfst, ⟨state', hrun⟩, hclosed⟩ :=
    handles_run (Q := fun r handle => ∀ a ∈ r.addresses, g.Holds a.toNat handle) hlinkable state
  have hzip : i.references.zip (closed.map Prod.snd) = closed := (List.zip_of_prod hfst rfl).symm
  have hstores : (i.references.zip (closed.map Prod.snd)).foldl
      (fun code x => closeReference code x.1 x.2) i.code =
      (stores closed).foldl (fun code x => code.storeHandle x.1 x.2) i.code := by
    rw [hzip, foldl_closeReference]
  simp only [link, hmode, StateT.run_bind, hrun]
  refine ⟨_, rfl, ?_⟩
  refine Eq.trans hstores ((hcode.foldl_storeHandle ?_).mono ?_).eq
  · intro x hx
    obtain ⟨y, hy, ha, hx⟩ := mem_stores.mp hx
    rw [hx]
    exact hclosed y hy x.1 ha
  · rintro n ⟨hhidden, hmissed⟩
    obtain ⟨r, hr, a, ha, hn⟩ := hcover n hhidden
    rw [← hfst, List.mem_map] at hr
    obtain ⟨y, hy, rfl⟩ := hr
    obtain ⟨hlow, hhigh⟩ := hmissed (a, y.2) (mem_stores.mpr ⟨y, hy, ha, rfl⟩)
    exact hn.elim hlow hhigh

end Image

end ScriptBackend
