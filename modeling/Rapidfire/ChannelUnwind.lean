import Rapidfire.ChannelLedger
import Rapidfire.ChannelEmpty

/-!
# Unwinding receives

`recv_many` grows the buffer of its caller before it moves the values of a
chunk, and after it received a message it had to wait for. When a growth
unwinds, the ledger of the call tells what became of the messages it took.
-/

namespace Rapidfire.ChannelUnwind

open Positions QueueMemory QueueMachine QueueHistory ChannelState ChannelMachine ChannelQueue
  ChannelLedger ChannelEmpty Runs

variable {Tid V : Type} {cfg : Config Tid} {m s s' : ChannelMachine.State Tid V} {t u : Tid}
  {l : ChannelMachine.Label V} {τ σ : List (Tid × ChannelMachine.Label V)} {values : List V}
  {lost : Option V}

variable [DecidableEq Tid]

section Cases

end Cases

section Accounts

end Accounts

section Notifications

end Notifications

end Rapidfire.ChannelUnwind
