import ReflectionTables.ReflectedTypes
/-!
# The text of a reflection

The text written for reflected types, line by line: field tables and entry points for records, name
tables for enumerations, `extern` lines for announced declarations, and the include lines of the
aggregate.
-/

namespace ReflectionTables.Generation

open Reflected

/-- Lines as one text; every line is ended. -/
def unlines (lines : List String) : String := String.join (lines.map (· ++ "\n"))

/-- The names that written headers refer to. -/
structure HeaderStyle where
  supportHeader : String := "reflection.h"
  namespaceName : String := "reflect"
deriving DecidableEq, Repr

def includeLine (path : String) : String := s!"#include \"{path}\""

/-- The line that makes a function depend on a parameter list, if there is one. -/
def templateLines (generic : String) : List String :=
  if generic = "" then [] else [s!"template <{generic}>"]

def kindName : MemberKind → String
  | .value => "FieldKind::Value"
  | .pointer => "FieldKind::Pointer"
  | .reference => "FieldKind::Reference"
  | .array _ => "FieldKind::Array"

/-- The storage of a member. A reference occupies the place of a pointer. -/
def sizeText (member : Member) : String :=
  match member.kind with
  | .reference => "sizeof(void*)"
  | _ => s!"sizeof(Self::{member.name})"

def elementLoop (arity line : String) : List String :=
  [s!"              for (size_t i = 0; i < ({arity}); ++i) \x7b", line, "              \x7d"]

def textLines (member : Member) : List String :=
  match member.kind with
  | .array arity => elementLoop arity "                  AppendText(out, field[i]);"
  | .pointer => ["              AppendText(out, static_cast<const void*>(field));"]
  | .value | .reference => ["              AppendText(out, field);"]

def viewLines (member : Member) : List String :=
  match member.kind with
  | .array arity =>
    elementLoop arity s!"                  ui.Element(\"{member.name}\", i, field[i]);"
  | .pointer => [s!"              ui.Pointer(\"{member.name}\", field);"]
  | .value | .reference => [s!"              ui.Field(\"{member.name}\", field);"]

/-- The row of a member in the field table. -/
def rowLines (member : Member) : List String :=
  let name := member.name
  [s!"        \x7b \"{name}\", offsetof(Self, {name}), {sizeText member}, " ++
     s!"({member.kind.arity}), {kindName member.kind},",
   "          [](const void* base, std::string& out) \x7b",
   s!"              const auto& field = static_cast<const Self*>(base)->{name};"] ++
  textLines member ++
  ["          \x7d,",
   "          [](void* base, UI& ui) \x7b",
   s!"              auto& field = static_cast<Self*>(base)->{name};"] ++
  viewLines member ++
  ["          \x7d \x7d,"]

def tableLine (type : String) : String :=
  s!"    const FieldTable& table = FieldsOf(static_cast<const {type}*>(nullptr));"

def tableLines (type : RecordType) : List String :=
  templateLines type.generic ++
  [s!"inline const FieldTable& FieldsOf(const {type.name}*) \x7b",
   s!"    using Self = {type.name};",
   "    static const FieldDesc rows[] = \x7b"] ++
  type.members.flatMap rowLines ++
  ["    \x7d;",
   s!"    static const FieldTable table\x7b rows, {type.members.length} \x7d;",
   "    return table;",
   "\x7d"]

/-- The function that writes a record as text. -/
def recordTextLines (type : RecordType) : List String :=
  templateLines type.generic ++
  [s!"inline std::string ToString(const {type.name}& value) \x7b",
   "    std::string out;",
   tableLine type.name,
   "    for (size_t i = 0; i < table.count; ++i) \x7b",
   "        table.rows[i].to_string(&value, out);",
   "    \x7d",
   "    return out;",
   "\x7d"]

/-- The function that shows a record in a user interface. -/
def recordViewLines (type : RecordType) : List String :=
  templateLines type.generic ++
  [s!"inline void ToUI({type.name}& value, UI& ui) \x7b",
   tableLine type.name,
   "    for (size_t i = 0; i < table.count; ++i) \x7b",
   "        table.rows[i].to_ui(&value, ui);",
   "    \x7d",
   "\x7d"]

def recordLines (type : RecordType) : List String :=
  tableLines type ++ [""] ++ recordTextLines type ++ [""] ++ recordViewLines type

def enumeratorLine (type enumerator : String) : String :=
  s!"        \x7b {type}::{enumerator}, \"{enumerator}\" \x7d,"

/-- The name table of an enumeration; without enumerators there is none. -/
def enumLines (type : EnumType) : List String :=
  [s!"inline std::string ToString({type.name} value) \x7b"] ++
  (if type.enumerators = [] then ["    (void)value;"]
   else
    [s!"    static const EnumName<{type.name}> names[] = \x7b"] ++
    type.enumerators.map (enumeratorLine type.name) ++
    ["    \x7d;",
     "    for (const auto& entry : names) \x7b",
     "        if (entry.value == value) \x7b",
     "            return entry.name;",
     "        \x7d",
     "    \x7d"]) ++
  ["    return \"\";", "\x7d"]

def typeLines : ReflectedType → List String
  | .record type => recordLines type
  | .enumeration type => enumLines type

def headerText (path : String) (types : List ReflectedType) (style : HeaderStyle) : String :=
  unlines <|
    ["#pragma once", includeLine path, includeLine style.supportHeader, "",
     s!"namespace {style.namespaceName} \x7b"] ++
    types.flatMap (fun type => "" :: typeLines type) ++
    ["", s!"\x7d // namespace {style.namespaceName}"]

def externLine (declaration : String) : String := s!"extern {declaration};"

def symbolsText (externs : List String) : String :=
  unlines ("#pragma once" :: externs.map externLine)

def declarationLine (path : String) (declaration : Declaration) : String :=
  s!"{includeLine path} // {declaration.tag.text} {declaration.name}"

end ReflectionTables.Generation
