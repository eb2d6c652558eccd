import Lre.Syntax.Stray
import Lre.Exec.Handles
import Lre.Exec.Meaning
import Lre.Exec.HandleStack
import Lre.Exec.Arith
import Lre.Exec.Literal
import Lre.Exec.Member
import Lre.Exec.Details
import Lre.Exec.Ownership
import Lre.Keyword.Registry
import Lre.Keyword.Coverage
import Lre.Keyword.Unregister
import Lre.Macro.Termination
import Lre.Macro.Grammar
import Lre.Semantic.Kinds
import Lre.Semantic.Scope
import Lre.Lexer.Faithful
import Lre.Interp.Growth
import Lre.Interp.Failure
import Lre.Lrc.Globals
import Lre.Lrc.Network
import Lre.Lrc.Processdir
import Lre.Lrc.CmdlineExtract
import Lre.Lrc.Fuzzypath
import Lre.Lrc.Searches
import Lre.Lrc.Append
import Lre.Lrc.Splicepath
import Lre.Lrc.SpecTable
import Lre.Syntax.Mempool
import Lre.Lrc.Permission
import Lre.Macro.Limits
import Lre.Interp.Printed
import Lre.Exec.Laws
import Lre.Keyword.Vector
import Lre.Lrc.NetRule
import Lre.Lrc.FileRule
import Lre.Syntax.Destroy
