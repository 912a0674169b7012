import Sfcc.Client
import Sfcc.Listener
import Sfcc.Xml.Lexer

-- What the indication listener makes of the payloads of its connections.
namespace Sfcc.Listener

open Xml Descent

variable (bytesOf : XtokInstance → Text)

-- What is given to `sendIndicationInstance`, if it is called. The first value is taken for an instance.
def processIndication (xml : Text) : Except (Failure Tok Fault) (Option CMPIValue) := do
  let rh ← scanResponse ⟨none, bytesOf⟩ (tokens xml)
  if rh.errCode ≠ 0 then return none
  else match (rh.rvArray.elementAt 0).value with
    | .zero => return none
    | inst  => some <$> (CMClone inst).mapError .fault

def Handled.sent : Handled → Except (Failure Tok Fault) (Option CMPIValue)
  | .processes _ xml => processIndication bytesOf xml
  | _                => return none

end Sfcc.Listener
