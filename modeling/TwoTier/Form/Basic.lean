import TwoTier.Block

/-! # Forms

A round in factored form: one block per slot of its template. The types of the round can be read off
the blocks.
-/

namespace TwoTier

abbrev Form := Slotted Block

def roundType (state data result : Ty) : Ty :=
  .func (.tuple [.place state .coordinator true, .place data .participants false]) result

namespace Block

def paramOrEmpty (b : Block) : Ty :=
  b.paramType?.getD .empty

def paramElement (b : Block) (i : Nat) : Ty :=
  b.paramOrEmpty.elementOrEmpty i

def resultElement (b : Block) (i : Nat) : Ty :=
  b.resultType.elementOrEmpty i

end Block

namespace MapReduce

variable (f : MapReduce Block)

def stateType : Ty := f.prepare.paramOrEmpty

def dataType : Ty := f.work.paramElement 0

def contextType : Ty := f.prepare.resultType

def updateType : Ty := f.work.resultElement 0

def secureType : Ty := f.work.resultElement 1

def accumulatorType : Ty := f.zero.resultType

def reportType : Ty := f.report.resultType

def outputType : Ty := f.update.resultElement 1

def signature : Ty :=
  roundType f.stateType f.dataType
    (.tuple [.atCoordinator f.stateType, .atCoordinator f.outputType])

end MapReduce

namespace DistributeAggregate

variable (f : DistributeAggregate Block)

def stateType : Ty := (f.serverPrepare.paramType?.bind Ty.member?).getD .empty

def dataType : Ty := (f.clientWork.paramElement 0).member?.getD .empty

/-- What the coordinator carries across the aggregations. -/
def carriedType : Ty := f.serverPrepare.resultElement 1

def signature : Ty :=
  roundType f.stateType f.dataType f.serverResult.resultType

end DistributeAggregate

namespace Broadcast

variable (f : Broadcast Block)

def stateType : Ty := f.context.paramOrEmpty

def dataType : Ty := f.processing.paramElement 1

def signature : Ty :=
  roundType f.stateType f.dataType (.atParticipants f.processing.resultType)

end Broadcast

namespace Form

def signature : Form → Ty
  | .mapReduce f => f.signature
  | .distributeAggregate f => f.signature
  | .broadcast f => f.signature

def stateType : Form → Ty
  | .mapReduce f => f.stateType
  | .distributeAggregate f => f.stateType
  | .broadcast f => f.stateType

def dataType : Form → Ty
  | .mapReduce f => f.dataType
  | .distributeAggregate f => f.dataType
  | .broadcast f => f.dataType

def parts (f : Form) : Parts :=
  f.map Block.payload

def same (f g : Form) : Bool :=
  f.template == g.template && (f.toList.zip g.toList).all fun (a, b) => a.same b

def text (f : Form) : String :=
  f.template.name ++ " form : " ++ f.signature.text ++ "\n"
    ++ String.join (f.named.map fun (slot, b) => "  " ++ slot ++ " = " ++ b.payload.text ++ "\n")

end Form

end TwoTier
