import Lunule.Lib.Exec

/-!
# Replay of a versioned journal

Every entry of a journal carries the version that it created. A replay skips the entries that the state already has,
redoes the next one and refuses one that is further ahead. `exec_replay_of_written` is the reason why a save point can
lie anywhere: whatever part of the journal the saved state has already seen is skipped, and the rest is redone in step
with the live state. The saved state may differ from the live one as long as a relation kept by every redo holds
between the two.
-/

namespace Lunule.Replay
open Exec
variable {σ ε : Type*} (version : σ → Nat) (stamp : ε → Nat) (redo : σ → ε → Option σ)

def replay (s : σ) (e : ε) : Option σ :=
  if stamp e ≤ version s then some s else if stamp e - 1 = version s then redo s e else none

/-- The live state writes an entry: the operation is carried out, and the entry carries the version it creates. -/
def write (s : σ) (e : ε) : Option σ := if stamp e = version s + 1 then redo s e else none

variable {version stamp redo} {e : ε}

theorem write_eq_some {s t : σ} :
    write version stamp redo s e = some t ↔ stamp e = version s + 1 ∧ redo s e = some t := by
  simp [write]

private theorem replay_of_le {s : σ} (h : stamp e ≤ version s) : replay version stamp redo s e = some s := by
  simp [replay, h]

private theorem replay_of_next {s : σ} (h : stamp e = version s + 1) : replay version stamp redo s e = redo s e := by
  unfold replay
  rw [if_neg (by omega), if_pos (by omega)]

variable {es : List ε}

private theorem exec_replay_of_le {s : σ} (h : ∀ e ∈ es, stamp e ≤ version s) :
    exec (replay version stamp redo) s es = some s := by
  induction es with
  | nil => rfl
  | cons e es ih =>
    have hs : replay version stamp redo s e = some s := replay_of_le (h e (by simp))
    exact exec_cons_eq_some.2 ⟨s, hs, ih (List.forall_mem_cons.1 h).2⟩

section
variable (hredo : ∀ s e t, redo s e = some t → version t = version s + 1)
include hredo

private theorem stamp_of_written {s t : σ} (h : exec (write version stamp redo) s es = some t) :
    version s ≤ version t ∧ ∀ e ∈ es, stamp e ≤ version t := by
  induction es generalizing s with
  | nil => cases h; simp
  | cons e es ih =>
    obtain ⟨u, hu, h'⟩ := exec_cons_eq_some.1 h
    obtain ⟨hstamp, hr⟩ := write_eq_some.1 hu
    have hv : version u = version s + 1 := hredo s e u hr
    obtain ⟨hle, hes⟩ := ih h'
    refine ⟨by omega, fun a ha => ?_⟩
    rcases List.mem_cons.1 ha with rfl | ha
    · omega
    · exact hes a ha

variable {Rel : σ → σ → Prop} (hversion : ∀ r s, Rel r s → version r = version s)
  (hsim : ∀ r s e t, Rel r s → redo s e = some t → ∃ r', redo r e = some r' ∧ Rel r' t)
include hversion hsim

omit hredo in
/-- A replay from a state that is level with the live one stays level with it. -/
theorem exec_replay_of_level {r s t : σ} (hr : Rel r s) (h : exec (write version stamp redo) s es = some t) :
    ∃ r', exec (replay version stamp redo) r es = some r' ∧ Rel r' t := by
  induction es generalizing r s with
  | nil => cases h; exact ⟨r, rfl, hr⟩
  | cons e es ih =>
    obtain ⟨u, hu, h'⟩ := exec_cons_eq_some.1 h
    obtain ⟨hstamp, hdone⟩ := write_eq_some.1 hu
    obtain ⟨q, hq, hqu⟩ := hsim r s e u hr hdone
    obtain ⟨r', hr', hrel⟩ := ih hqu h'
    have hnext : replay version stamp redo r e = some q := by
      rw [replay_of_next (by rw [hversion r s hr]; exact hstamp), hq]
    exact ⟨r', exec_cons_eq_some.2 ⟨q, hnext, hr'⟩, hrel⟩

/-- A replay of the whole journal from a state saved in between: `old` was written before `s`, `es` between `s` and
the save point `t`, and `fs` after it. -/
theorem exec_replay_of_written {r s t u : σ} {old es fs : List ε} (hold : ∀ e ∈ old, stamp e ≤ version s)
    (hes : exec (write version stamp redo) s es = some t) (hfs : exec (write version stamp redo) t fs = some u)
    (hr : Rel r t) :
    ∃ r', exec (replay version stamp redo) r (old ++ es ++ fs) = some r' ∧ Rel r' u := by
  obtain ⟨hle, hstamp⟩ := stamp_of_written hredo hes
  have hv : version r = version t := hversion r t hr
  have hskip : exec (replay version stamp redo) r (old ++ es) = some r := by
    refine exec_replay_of_le fun e he => ?_
    rcases List.mem_append.1 he with he | he
    · have := hold e he
      omega
    · have := hstamp e he
      omega
  obtain ⟨r', hr', hrel⟩ := exec_replay_of_level hversion hsim hr hfs
  exact ⟨r', exec_append_eq_some.2 ⟨r, hskip, hr'⟩, hrel⟩

end
end Lunule.Replay
