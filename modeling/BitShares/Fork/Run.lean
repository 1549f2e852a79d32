import BitShares.Fork.Push
import BitShares.Chain.Run
import BitShares.Game.Block

/-!
# Histories of a node's fork database

A node is pushed blocks, each under the configuration it has at that moment, and from time to time
it is restarted and goes over the blocks it found to be from the future.  `ForkRun C` is any history
whose events all meet a condition `C` in the state they come upon.
-/

namespace BitShares

variable [Crypto]

inductive ForkEvent where
  | push (cfg : ClientConfig) (b : FullBlock)
  | restart

/-- One event.  What `push_block` returns or throws does not matter to the state; a loop may need
more than `fuel` rounds, and then the event does not end. -/
def ForkState.step (s : ForkState) (fuel : Nat) : ForkEvent → Option ForkState
  | .push cfg b => (ForkM.pushBlock (fun c b => c.extendChainOn cfg b) fuel b s).map (·.2)
  | .restart => (ForkM.clearInvalidationOfFutureBlocks fuel s).map (·.2)

/-- The states reached by events that meet `C`. -/
inductive ForkRun (C : ForkState → ForkEvent → Prop) : ForkState → ForkState → Prop
  | refl (s : ForkState) : ForkRun C s s
  | step {s m s' : ForkState} {e : ForkEvent} (fuel : Nat) (hc : C s e)
      (h : s.step fuel e = some m) (hrest : ForkRun C m s') : ForkRun C s s'

def ForkState.steps (s : ForkState) (fuel : Nat) (events : List ForkEvent) : Option ForkState :=
  events.foldlM (fun s e => s.step fuel e) s

theorem ForkRun.of_steps {C : ForkState → ForkEvent → Prop} {fuel : Nat} {events : List ForkEvent}
    {s s' : ForkState} (h : s.steps fuel events = some s') (hc : ∀ s, ∀ e ∈ events, C s e) :
    ForkRun C s s' :=
  foldlM_run .refl (fun s e he _ _ hm hrest => .step fuel (hc s e he) hm hrest) h

theorem ForkRun.induction {C : ForkState → ForkEvent → Prop} {I : ForkState → Prop}
    {s s' : ForkState} (hrun : ForkRun C s s')
    (hstep : ∀ s e fuel s', C s e → s.step fuel e = some s' → I s → I s') (hs : I s) : I s' := by
  induction hrun with
  | refl s => exact hs
  | step fuel hc h _ ih => exact ih (hstep _ _ fuel _ hc h hs)

/-- A history that goes on only as long as its events pass a check. -/
def ForkState.checkedSteps (check : ForkState → ForkEvent → Bool) (s : ForkState) (fuel : Nat)
    (events : List ForkEvent) : Option ForkState :=
  events.foldlM (fun s e => if check s e then s.step fuel e else none) s

theorem ForkRun.of_checkedSteps {C : ForkState → ForkEvent → Prop}
    {check : ForkState → ForkEvent → Bool} {fuel : Nat} {events : List ForkEvent}
    (hcheck : ∀ s e, check s e = true → C s e) {s s' : ForkState}
    (h : s.checkedSteps check fuel events = some s') : ForkRun C s s' := by
  refine foldlM_run .refl (fun s e _ m s' hm hrest => ?_) h
  obtain ⟨hc, hm⟩ := Option.ite_none_right_eq_some.1 hm
  exact .step fuel (hcheck s e hc) hm hrest

/-- Blocks of one delegate, for a clock at 100: block 3 arrives before the block 2 it is on, a branch
to block 4 has a block 2 that is not on time, and another block 4 is on the first block 2. -/
def branchedBlocks : List FullBlock :=
  let block1 := soloBlock 1 nullId 10 []
  let block2 := soloBlock 2 block1.id 20 []
  let block3 := soloBlock 3 block2.id 30 []
  let late2 := soloBlock 2 block1.id 13 []
  let late3 := soloBlock 3 late2.id 40 []
  let late4 := soloBlock 4 late3.id 50 []
  let other3 := soloBlock 3 block2.id 60 []
  let other4 := soloBlock 4 other3.id 70 []
  [block1, block3, block2, late2, late3, late4, other3, other4]

def branchedPushes : List ForkEvent := branchedBlocks.map (.push { clock := 100 })

end BitShares
