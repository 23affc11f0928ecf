import ScriptBackend.Proofs.Text
import ScriptBackend.Text.Terminated

/-!
# Texts found by their offsets

`textAt?` looks for a zero and decodes what comes before it. It finds a text exactly
where the bytes of that text stand with a zero behind them and none among them.
-/

namespace ScriptBackend.Text

def HasTextAt (pool : List Byte) (offset : UInt32) (text : String) : Prop :=
  ∃ front back, pool = front ++ (bytes text ++ 0 :: back) ∧ front.length = offset.toNat ∧ 0 ∉ bytes text

theorem textAt?_append {text : String} (hzero : 0 ∉ bytes text) (front back : List Byte)
    (hoffset : offset.toNat = front.length) :
    textAt? (front ++ (bytes text ++ 0 :: back)) offset = some text := by
  rw [textAt?, hoffset, List.drop_left, takeWhile_ne hzero, if_pos (by simp), ofBytes?_bytes]

theorem textAt?_eq_some_iff : textAt? pool offset = some text ↔ HasTextAt pool offset text := by
  constructor
  · intro h
    simp only [textAt?] at h
    split at h
    · rename_i hzero
      obtain ⟨bs, back, htail, hbs⟩ := List.eq_append_cons_of_mem hzero
      rw [htail, takeWhile_ne hbs] at h
      have hbytes := bytes_of_ofBytes? h
      have hlt : offset.toNat < pool.length := by
        have := congrArg List.length htail
        simp only [List.length_drop, List.length_append, List.length_cons] at this
        omega
      refine ⟨pool.take offset.toNat, back, ?_, List.length_take_of_le (Nat.le_of_lt hlt), ?_⟩
      · rw [hbytes, ← htail, List.take_append_drop]
      · rwa [hbytes]
    · cases h
  · rintro ⟨front, back, rfl, hlen, hzero⟩
    exact textAt?_append hzero front back hlen.symm

end ScriptBackend.Text
