/-
# What draining takes

The draining loop is left when no segment is buffered behind the position. The position
does not have to move for that: a segment of no bytes is taken once and leaves nothing
under its key. What the loop takes is the chain of buffered segments from there on, each
leading to the key behind its last byte.
-/

import Comnet.Foundations.Chain
import Comnet.MP2.Receiver

set_option autoImplicit false

namespace Comnet.MP2

open Foundations

/-- The key of a segment that begins behind the last byte of a buffered one. -/
def keyBehind (key : ℤ) (early : List UInt8 × Bool) : ℤ := key + early.1.length

/-- The bytes of a chain of buffered segments, in its order. -/
def bytesOf (chain : List (ℤ × (List UInt8 × Bool))) : List UInt8 :=
  chain.flatMap fun entry => entry.2.1

namespace ReceiverStateMachine

/-- The loop of `checkEarlyData`; there is no result as long as it has not been left. -/
def drainLoop : ℕ → ReceiverStateMachine → Option ReceiverStateMachine
  | 0, _ => none
  | rounds + 1, s =>
    match s.buffer[s.ackedPosition + 1]? with
    | some early => drainLoop rounds (s.takeEarly early)
    | none => some s

/-- The chain of the buffered segments behind the position. -/
def EarlyChain (s : ReceiverStateMachine) : List (ℤ × (List UInt8 × Bool)) → ℤ → Prop :=
  Chain (fun key => s.buffer[key]?) keyBehind (s.ackedPosition + 1)

/-- The segments of a chain have been taken from the buffer and nothing else has been done. -/
structure Drained (s t : ReceiverStateMachine) (chain : List (ℤ × (List UInt8 × Bool))) :
    Prop where
  recvData : t.recvData = s.recvData ++ bytesOf chain
  ackedPosition : t.ackedPosition = s.ackedPosition + (bytesOf chain).length
  fin : t.fin = true ↔ s.fin = true ∨ ∃ entry ∈ chain, entry.2.2 = true
  buffer : ∀ key : ℤ, t.buffer[key]? = if key ∈ chain.map Prod.fst then none else s.buffer[key]?
  filter : t.toLossFilter = s.toLossFilter

variable {s t : ReceiverStateMachine} {early : List UInt8 × Bool}
  {chain rest : List (ℤ × (List UInt8 × Bool))} {next : ℤ}

@[simp] theorem bytesOf_cons (key : ℤ) (early : List UInt8 × Bool)
    (chain : List (ℤ × (List UInt8 × Bool))) :
    bytesOf ((key, early) :: chain) = early.1 ++ bytesOf chain := rfl

theorem drainLoop_of_some (h : s.buffer[s.ackedPosition + 1]? = some early) (rounds : ℕ) :
    s.drainLoop (rounds + 1) = (s.takeEarly early).drainLoop rounds := by
  simp only [drainLoop, h]

theorem drainLoop_of_none (h : s.buffer[s.ackedPosition + 1]? = none) (rounds : ℕ) :
    s.drainLoop (rounds + 1) = some s := by
  simp only [drainLoop, h]

/-- The loop is left at the latest when every buffered segment has been taken. -/
theorem drainLoop_size (s : ReceiverStateMachine) :
    s.drainLoop (s.buffer.size + 1) = some s.checkEarlyData := by
  induction s using drain_induction with
  | last s hnone => rw [drainLoop_of_none hnone, checkEarlyData_of_none hnone]
  | round s early hfind ih =>
    rw [← size_takeEarly hfind, drainLoop_of_some hfind, checkEarlyData_of_some hfind]
    exact ih

/-- The loop is always left, wherever positions go, and with what `checkEarlyData` gives. -/
theorem drainLoop_eq_some_iff :
    (∃ rounds, s.drainLoop rounds = some t) ↔ t = s.checkEarlyData := by
  constructor
  · rintro ⟨rounds, hloop⟩
    induction rounds generalizing s with
    | zero => cases hloop
    | succ rounds ih =>
      cases hfind : s.buffer[s.ackedPosition + 1]? with
      | none =>
        rw [drainLoop_of_none hfind] at hloop
        rw [checkEarlyData_of_none hfind]
        exact (Option.some.inj hloop).symm
      | some early =>
        rw [drainLoop_of_some hfind] at hloop
        rw [checkEarlyData_of_some hfind]
        exact ih hloop
  · rintro rfl
    exact ⟨_, s.drainLoop_size⟩

theorem le_keyBehind (key : ℤ) (early : List UInt8 × Bool) : key ≤ keyBehind key early := by
  rw [keyBehind]
  omega

/-- There is a chain behind the position, whatever is buffered. -/
theorem exists_earlyChain (s : ReceiverStateMachine) : ∃ chain next, s.EarlyChain chain next := by
  refine exists_chain s.buffer.keys.toFinset (fun key hkey => ?_) (s.ackedPosition + 1)
  rw [List.mem_toFinset, Std.ExtTreeMap.mem_keys, Std.ExtTreeMap.mem_iff_isSome_getElem?]
  exact Option.isSome_iff_ne_none.mpr hkey

/-- A round takes the first segment of the chain and leaves the rest of it. -/
theorem earlyChain_of_some (h : s.buffer[s.ackedPosition + 1]? = some early)
    (fits : FitsInt (s.ackedPosition + early.1.length)) :
    s.EarlyChain chain next ↔ ∃ rest, chain = (s.ackedPosition + 1, early) :: rest ∧
      (s.takeEarly early).EarlyChain rest next := by
  have hposition : (s.takeEarly early).ackedPosition + 1 =
      keyBehind (s.ackedPosition + 1) early := by
    rw [takeEarly_ackedPosition, narrow_eq_self_iff.mpr fits, keyBehind]
    omega
  have hbuffer : (fun key => (s.takeEarly early).buffer[key]?) =
      Function.update (fun key => s.buffer[key]?) (s.ackedPosition + 1) none := by
    funext key
    rw [getElem?_takeEarly, Function.update_apply]
  simp only [EarlyChain, hposition, hbuffer]
  exact chain_of_some h

theorem drained_nil (s : ReceiverStateMachine) : s.Drained s [] where
  recvData := by simp [bytesOf]
  ackedPosition := by simp [bytesOf]
  fin := by simp
  buffer := by simp
  filter := rfl

/-- A round in front of draining the rest. -/
theorem Drained.cons (h : (s.takeEarly early).Drained t rest)
    (fits : FitsInt (s.ackedPosition + early.1.length)) :
    s.Drained t ((s.ackedPosition + 1, early) :: rest) where
  recvData := by
    rw [h.recvData, takeEarly_recvData, bytesOf_cons, List.append_assoc]
  ackedPosition := by
    rw [h.ackedPosition, takeEarly_ackedPosition, narrow_eq_self_iff.mpr fits, bytesOf_cons,
      List.length_append]
    omega
  fin := by
    rw [h.fin, takeEarly_fin, Bool.or_eq_true, List.exists_mem_cons_iff, or_assoc]
  buffer key := by
    rw [h.buffer, getElem?_takeEarly, List.map_cons]
    by_cases hkey : key = s.ackedPosition + 1
    · simp [hkey]
    · simp only [hkey, List.mem_cons, false_or, if_false]
  filter := h.filter

/-- The loop takes the chain behind the position in as many rounds as it has segments, and is left
in the next one. -/
theorem drained_checkEarlyData (hchain : s.EarlyChain chain next)
    (nonneg : 0 ≤ s.ackedPosition) (bound : next ≤ 2 ^ 31) :
    s.Drained s.checkEarlyData chain ∧ s.checkEarlyData.ackedPosition + 1 = next ∧
      ∀ rounds, s.drainLoop rounds =
        if chain.length < rounds then some s.checkEarlyData else none := by
  induction chain generalizing s with
  | nil =>
    have hnone : s.buffer[s.ackedPosition + 1]? = none := by
      obtain rfl : s.ackedPosition + 1 = next := hchain.linked
      simpa using hchain.ends
    rw [checkEarlyData_of_none hnone]
    refine ⟨drained_nil s, hchain.linked, fun rounds => ?_⟩
    cases rounds with
    | zero => rfl
    | succ rounds => rw [drainLoop_of_none hnone, if_pos (by simp)]
  | cons entry chain ih =>
    have hfind : s.buffer[s.ackedPosition + 1]? = some entry.2 := hchain.linked.2.1
    have hbehind : keyBehind (s.ackedPosition + 1) entry.2 ≤ next :=
      le_of_linked le_keyBehind hchain.linked.2.2
    rw [keyBehind] at hbehind
    have hfits : FitsInt (s.ackedPosition + entry.2.1.length) := ⟨by omega, by omega⟩
    obtain ⟨rest, hcons, hrest⟩ := (earlyChain_of_some hfind hfits).mp hchain
    obtain ⟨hentry, rfl⟩ := List.cons_eq_cons.mp hcons
    have hposition : 0 ≤ (s.takeEarly entry.2).ackedPosition := by
      rw [takeEarly_ackedPosition, narrow_eq_self_iff.mpr hfits]
      omega
    obtain ⟨hdrained, hnext, hloop⟩ := ih hrest hposition
    rw [checkEarlyData_of_some hfind]
    refine ⟨hentry ▸ hdrained.cons hfits, hnext, fun rounds => ?_⟩
    cases rounds with
    | zero => rfl
    | succ rounds =>
      rw [drainLoop_of_some hfind, hloop]
      simp

/-- Whatever is buffered, as long as positions stay below the largest value of a signed variable:
there is one chain of buffered segments behind the position, the loop is left after one round for
each of them and one more, it takes exactly these, and no segment is buffered behind the position
when it is left. -/
theorem checkEarlyData_takes_chain (s : ReceiverStateMachine) (nonneg : 0 ≤ s.ackedPosition)
    (bound : ∀ chain next, s.EarlyChain chain next → next - 1 < 2 ^ 31 - 1) :
    ∃ chain next, s.EarlyChain chain next ∧
      (∀ chain' next', s.EarlyChain chain' next' → chain' = chain ∧ next' = next) ∧
      (∀ rounds, s.drainLoop rounds =
        if chain.length < rounds then some s.checkEarlyData else none) ∧
      s.Drained s.checkEarlyData chain ∧ s.checkEarlyData.ackedPosition + 1 = next ∧
      s.checkEarlyData.buffer[s.checkEarlyData.ackedPosition + 1]? = none := by
  obtain ⟨chain, next, hchain⟩ := s.exists_earlyChain
  have hbound := bound chain next hchain
  obtain ⟨hdrained, hnext, hloop⟩ := drained_checkEarlyData hchain nonneg (by omega)
  have hexit := (checkEarlyData_rule (P := fun _ => True) (s := s) trivial fun _ _ h _ => h).2
  exact ⟨chain, next, hchain, fun _ _ h => hchain.unique h, hloop, hdrained, hnext, hexit⟩

/-- A receiver with three segments in its buffer: the second one, of no bytes, leads back to
its own key, and the third one is not met. -/
def threeBuffered : ReceiverStateMachine :=
  { construct .none with
    ackedPosition := 2
    recvData := [65, 66]
    buffer := ((∅ : Std.ExtTreeMap ℤ (List UInt8 × Bool)).insert 3 ([67], false)).insert 4
      ([], true) |>.insert 9 ([68], false) }

theorem earlyChain_threeBuffered :
    threeBuffered.EarlyChain [(3, [67], false), (4, [], true)] 4 where
  linked := ⟨rfl, by decide +kernel, rfl, by decide +kernel, rfl⟩
  nodup := by decide
  ends := Or.inr (by decide)

theorem checkEarlyData_takes_chain_empty_segment :
    threeBuffered.drainLoop 3 = some threeBuffered.checkEarlyData ∧
      threeBuffered.Drained threeBuffered.checkEarlyData
        [(3, [67], false), (4, [], true)] := by
  obtain ⟨chain, next, -, hunique, hloop, hdrained, -⟩ :=
    threeBuffered.checkEarlyData_takes_chain (by decide) fun chain next hchain => by
      obtain ⟨-, rfl⟩ := earlyChain_threeBuffered.unique hchain
      decide
  obtain ⟨rfl, -⟩ := hunique _ _ earlyChain_threeBuffered
  exact ⟨hloop 3, hdrained⟩

end ReceiverStateMachine

end Comnet.MP2
