import Sfcc.Memory
import Sfcc.Xml.Encode

-- `AsciiToXmlStr` with the block that it writes to.
namespace Sfcc

def LargestXmlEscapeSize : ℤ := 6

-- The escape of a byte, or the byte itself.
def xmlPiece (b : UInt8) : Text :=
  (XmlEscapes.find? (·.1 = b)).elim [b] (·.2)

-- The loop over the bytes, which ends with a NUL.
def escapeWrites (buflen Xlen : ℤ) : Text → List Write
  | []     => [⟨Xlen, [0], size_t buflen⟩]
  | b :: t =>
    let buflen := if buflen ≤ int (Xlen + LargestXmlEscapeSize) then int (2 * buflen) else buflen
    ⟨Xlen, xmlPiece b, size_t buflen⟩ :: escapeWrites buflen (int (Xlen + (xmlPiece b).length)) t

def AsciiToXmlStrWrites (s : Text) : List Write :=
  escapeWrites (int (s.length + 1)) 0 s

end Sfcc
