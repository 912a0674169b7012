import Sfcc.Theorems.Connection
import Sfcc.Memory
import Sfcc.Lib.Descent.Basic
import Sfcc.Lib.Descent.Reads
import Sfcc.Lib.Descent.Runs
import Sfcc.Cmpi.Type
import Sfcc.Xml.Xtok
import Sfcc.Xml.Grammar
import Sfcc.Xml.Tree
import Sfcc.Theorems.Xml.Path
import Sfcc.Theorems.Xml.Instance
import Sfcc.Theorems.Xml.Class
import Sfcc.Theorems.Xml.Accepts
import Sfcc.Cmpi.Value
import Sfcc.Cmpi.Native
import Sfcc.Xml.Convert
import Sfcc.Xml.Response
import Sfcc.Xml.ResponseTree
import Sfcc.Theorems.Xml.Response
import Sfcc.Client
import Sfcc.Theorems.Cmpi.Array
import Sfcc.Theorems.Xml.Results
import Sfcc.Theorems.Client
import Sfcc.Theorems.Xml.Params
import Sfcc.Release
import Sfcc.Theorems.Release
import Sfcc.Theorems.Cmpi.Clone
import Sfcc.Theorems.Cmpi.Built
import Sfcc.Theorems.Xml.Built
import Sfcc.Theorems.Cmpi.Identity
import Sfcc.Theorems.Enumeration
import Sfcc.Cmpi.Chars
import Sfcc.Theorems.Cmpi.Chars
import Sfcc.Lib.Segments
import Sfcc.Listener
import Sfcc.Theorems.Listener
import Sfcc.Theorems.Xml.Qualifiers
import Sfcc.NameSpace
import Sfcc.Theorems.Components
import Sfcc.Xml.Lexer
import Sfcc.Theorems.Xml.Lexer
import Sfcc.Theorems.Xml.Texts
import Sfcc.Theorems.Xml.Scalar
import Sfcc.Escaper
import Sfcc.Progress
import Sfcc.Theorems.Cmpi.Writes
import Sfcc.Theorems.Escaper
import Sfcc.Theorems.Progress
import Sfcc.Theorems.Xml.Content
import Sfcc.Headers
import Sfcc.Theorems.Cmpi.Equal
import Sfcc.Theorems.Headers
import Sfcc.Theorems.Xml.Booleans
import Sfcc.Theorems.Xml.Embedded
import Sfcc.Theorems.Xml.Arguments
import Sfcc.Theorems.Additions
import Sfcc.Cmpi.Array
import Sfcc.Cmpi.DateTime
import Sfcc.Cmpi.Filter
import Sfcc.Theorems.Cmpi.ArrayList
import Sfcc.Theorems.Cmpi.DateTime
import Sfcc.Theorems.Cmpi.Filter
import Sfcc.Theorems.Cmpi.FilterClone
import Sfcc.Theorems.Errors
import Sfcc.Theorems.Xml.ValueText
import Sfcc.Lib.Cells
import Sfcc.Payload
import Sfcc.InBuf
import Sfcc.Theorems.Cmpi.DateTimeBuffer
import Sfcc.Theorems.Payload
import Sfcc.Theorems.InBuf
import Sfcc.Theorems.Parse
import Sfcc.Cmpi.ConstClass
import Sfcc.Theorems.Xml.Entries
import Sfcc.Theorems.Xml.ConstClass
import Sfcc.Theorems.Xml.Shapes
import Sfcc.Theorems.Xml.Extends
import Sfcc.Theorems.Xml.EmptyTags
import Sfcc.Theorems.Xml.Layouts
import Sfcc.Theorems.Xml.Advance
import Sfcc.Theorems.Xml.Termination
import Sfcc.Theorems.Xml.Bounds
import Sfcc.Theorems.Xml.Lookahead
import Sfcc.Theorems.Xml.Comments
import Sfcc.Theorems.Xml.Guess
import Sfcc.Cmpi.Property
import Sfcc.Theorems.Cmpi.Property
import Sfcc.Lib.Allocation
import Sfcc.ParserHeap
import Sfcc.Theorems.ParserHeap
import Sfcc.UtilStringBuffer
import Sfcc.Theorems.UtilStringBuffer
import Sfcc.Theorems.NameSpace
import Sfcc.Lib.Single
import Sfcc.Lib.Chaining
import Sfcc.HashTable
import Sfcc.Theorems.HashTable
import Sfcc.Lib.Links
import Sfcc.Lib.Cursors
import Sfcc.GenericList
import Sfcc.Theorems.GenericList
import Sfcc.Theorems.ListRuns
import Sfcc.Lib.Markup
import Sfcc.Requests
import Sfcc.RequestTree
import Sfcc.Theorems.Requests
import Sfcc.Theorems.Injection
import Sfcc.Lib.Machine
import Sfcc.Session
import Sfcc.Exchange
import Sfcc.Theorems.Session
import Sfcc.Theorems.Xml.Documents
import Sfcc.Indication
import Sfcc.Theorems.Indication
