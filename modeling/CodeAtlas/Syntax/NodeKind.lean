import CodeAtlas.Declaration.Basic

/-!
The kinds of nodes of a C# syntax tree, as far as declarations depend on them, and the roles that
children can have in their parent. Every other kind or role is kept by its name.
-/
namespace CodeAtlas.Syntax

inductive TypeForm where
  | «class» | struct | interface | record | recordStruct | enum
  deriving DecidableEq, Repr

inductive NamespaceForm where
  | block | fileScoped
  deriving DecidableEq, Repr

inductive FieldForm where
  | field | event
  deriving DecidableEq, Repr

inductive Token where
  | operator | checked | this | struct | implicit | explicit | «in» | out | ref | params
  | scoped | readonly | equals
  deriving DecidableEq, Repr

inductive NodeKind where
  | type (form : TypeForm)
  | «namespace» (form : NamespaceForm)
  | delegate
  | method (form : MethodForm)
  | property (form : PropertyForm)
  | field (form : FieldForm)
  | enumMember
  | variableDeclaration
  | variableDeclarator
  | memberList
  | attributeList
  | modifier
  | explicitInterface
  | typeParameterList
  | typeParameter
  | parameterList
  | parameter
  | defaultClause
  | identifier
  | token (token : Token)
  | other (name : String)
  deriving DecidableEq, Repr

namespace NodeKind

def table : List (String × NodeKind) :=
  [("class_declaration", .type .class),
   ("struct_declaration", .type .struct),
   ("interface_declaration", .type .interface),
   ("record_declaration", .type .record),
   ("record_struct_declaration", .type .recordStruct),
   ("enum_declaration", .type .enum),
   ("namespace_declaration", .namespace .block),
   ("file_scoped_namespace_declaration", .namespace .fileScoped),
   ("delegate_declaration", .delegate),
   ("method_declaration", .method .method),
   ("constructor_declaration", .method .constructor),
   ("destructor_declaration", .method .destructor),
   ("operator_declaration", .method .operator),
   ("conversion_operator_declaration", .method .conversion),
   ("property_declaration", .property .property),
   ("event_declaration", .property .event),
   ("indexer_declaration", .property .indexer),
   ("field_declaration", .field .field),
   ("event_field_declaration", .field .event),
   ("enum_member_declaration", .enumMember),
   ("variable_declaration", .variableDeclaration),
   ("variable_declarator", .variableDeclarator),
   ("declaration_list", .memberList),
   ("enum_member_declaration_list", .memberList),
   ("attribute_list", .attributeList),
   ("modifier", .modifier),
   ("explicit_interface_specifier", .explicitInterface),
   ("type_parameter_list", .typeParameterList),
   ("type_parameter", .typeParameter),
   ("parameter_list", .parameterList),
   ("bracketed_parameter_list", .parameterList),
   ("parameter", .parameter),
   ("parameter_array", .parameter),
   ("equals_value_clause", .defaultClause),
   ("identifier", .identifier),
   ("operator", .token .operator),
   ("checked", .token .checked),
   ("this", .token .this),
   ("struct", .token .struct),
   ("implicit", .token .implicit),
   ("explicit", .token .explicit),
   ("in", .token .in),
   ("out", .token .out),
   ("ref", .token .ref),
   ("params", .token .params),
   ("scoped", .token .scoped),
   ("readonly", .token .readonly),
   ("=", .token .equals)]

def ofName (name : String) : NodeKind := (table.lookup name).getD (.other name)

def isType : NodeKind → Bool
  | .type _ => true
  | _ => false

def isNamespace : NodeKind → Bool
  | .namespace _ => true
  | _ => false

end NodeKind

inductive Role where
  | name | body | type | operator | parameters | typeParameters
  | other (name : String)
  deriving DecidableEq, Repr

namespace Role

def table : List (String × Role) :=
  [("name", .name), ("body", .body), ("type", .type), ("operator", .operator),
   ("parameters", .parameters), ("type_parameters", .typeParameters)]

def ofName (name : String) : Role := (table.lookup name).getD (.other name)

end Role
end CodeAtlas.Syntax
