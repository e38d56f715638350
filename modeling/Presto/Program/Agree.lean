import Presto.Program.Traced

/-! Programs that agree up to a trace: where the events of one are among those of the trace, the
other one runs in the same way. -/
namespace Program

variable {σ ε α β γ η : Type} {T : List (η × σ)}

end Program
