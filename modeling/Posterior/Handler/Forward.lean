import Posterior.Handler.Basic

/-!
Forward execution, outside of inference: choices are drawn as they come, the return value is passed
through, and factors are refused.
-/

namespace Posterior.Forward

def handler (id : HandlerId) : Handler Unit Value where
  name := "forward"
  id := id
  onSample choice deliver := do
    let value ← Run.draw (choice.dist.draw choice.params)
    return .resume (.deliver deliver choice.store value)
  onFactor point _ := Run.fail (.factorOutsideInference point.address)
  onExit _ value := do
    Run.restore id
    return .done value

/-- Runs a program once. -/
def run (fuel : Nat) (program : Program) (address : Address) (store : Store) : InContext Value := do
  let id ← InContext.install "forward"
  let (value, _) ← ((handler id).drive fuel (.carryOn (program.entry address) store)).inContext ()
  return value

end Posterior.Forward
