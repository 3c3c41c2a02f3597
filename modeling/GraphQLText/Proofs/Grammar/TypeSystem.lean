import GraphQLText.Document.Basic
import GraphQLText.Proofs.Grammar.Executable

/-!
# The grammar of the type system

The phrases that spell the definitions of a schema and its extensions, and whole documents. A
definition whose body in braces is missing must not be followed by an opening brace, which would be
taken for its body.
-/

namespace GraphQLText

set_option autoImplicit false

abbrev StringValue.DerivesDescription : Phrase → Option StringValue → Prop :=
  Perhaps StringValue.Derives

/-- An argument as a schema defines it, or a field of an input object. -/
inductive InputValueDefinition.Derives : Phrase → InputValueDefinition → Prop
  | intro {u t v w : Phrase} (d : InputValueDefinition) :
      StringValue.DerivesDescription u d.description → TypeRef.Derives t d.type →
      Value.DerivesDefault v d.default → Directive.DerivesAll true w d.directives →
      Derives (u ++ .name d.name :: .mark .colon :: (t ++ (v ++ w))) d

abbrev InputValueDefinition.DerivesAll : Phrase → List InputValueDefinition → Prop :=
  Enclosed .openParen .closeParen InputValueDefinition.Derives

inductive FieldDefinition.Derives : Phrase → FieldDefinition → Prop
  | intro {u v t w : Phrase} (d : FieldDefinition) :
      StringValue.DerivesDescription u d.description →
      InputValueDefinition.DerivesAll v d.arguments → TypeRef.Derives t d.type →
      Directive.DerivesAll true w d.directives →
      Derives (u ++ .name d.name :: (v ++ .mark .colon :: (t ++ w))) d

inductive EnumValueDefinition.Derives : Phrase → EnumValueDefinition → Prop
  | intro {u w : Phrase} (d : EnumValueDefinition) :
      StringValue.DerivesDescription u d.description → isEnumName d.name = true →
      Directive.DerivesAll true w d.directives → Derives (u ++ .name d.name :: w) d

abbrev TypeName.DerivesInterfaces : Phrase → List TypeName → Prop :=
  Introduced (.name "implements") .ampersand TypeName.Derives

abbrev TypeName.DerivesMembers : Phrase → List TypeName → Prop :=
  Introduced (.punctuator .equals) .pipe TypeName.Derives

/-- What stands before the directives of a type and what stands behind them. -/
inductive TypeContent.Derives : Phrase → Phrase → TypeContent → Prop
  | scalar : Derives [] [] .scalar
  | object {u v : Phrase} {interfaces : List TypeName} {fields : List FieldDefinition} :
      TypeName.DerivesInterfaces u interfaces →
      Enclosed .openBrace .closeBrace FieldDefinition.Derives v fields →
      Derives u v (.object interfaces fields)
  | interface {u v : Phrase} {interfaces : List TypeName} {fields : List FieldDefinition} :
      TypeName.DerivesInterfaces u interfaces →
      Enclosed .openBrace .closeBrace FieldDefinition.Derives v fields →
      Derives u v (.interface interfaces fields)
  | union {v : Phrase} {members : List TypeName} : TypeName.DerivesMembers v members →
      Derives [] v (.union members)
  | enum {v : Phrase} {values : List EnumValueDefinition} :
      Enclosed .openBrace .closeBrace EnumValueDefinition.Derives v values →
      Derives [] v (.enum values)
  | inputObject {v : Phrase} {fields : List InputValueDefinition} :
      Enclosed .openBrace .closeBrace InputValueDefinition.Derives v fields →
      Derives [] v (.inputObject fields)

inductive TypeDefinition.Derives : Phrase → TypeDefinition → Prop
  | intro {u head v tail : Phrase} (d : TypeDefinition) :
      StringValue.DerivesDescription u d.description →
      TypeContent.Derives head tail d.content → Directive.DerivesAll true v d.directives →
      Derives (u ++ .name d.kind.keyword :: .name d.name.name :: (head ++ (v ++ tail))) d

inductive RootOperationType.Derives : Phrase → RootOperationType → Prop
  | intro (d : RootOperationType) :
      Derives [.name d.kind.keyword, .mark .colon, .name d.type.name] d

/-- The definition of a schema, which may come to nothing. -/
inductive SchemaDefinition.Derives : Phrase → SchemaDefinition → Prop
  | intro {u v w : Phrase} (d : SchemaDefinition) :
      StringValue.DerivesDescription u d.description →
      Directive.DerivesAll true v d.directives →
      Enclosed .openBrace .closeBrace RootOperationType.Derives w d.operationTypes →
      Derives (u ++ .name "schema" :: (v ++ w)) d

inductive DirectiveLocation.Derives : Phrase → DirectiveLocation → Prop
  | intro (l : DirectiveLocation) : Derives [.name l.name] l

inductive DirectiveDefinition.Derives : Phrase → DirectiveDefinition → Prop
  | intro {u v w : Phrase} (d : DirectiveDefinition) :
      StringValue.DerivesDescription u d.description →
      InputValueDefinition.DerivesAll v d.arguments →
      Separated .pipe DirectiveLocation.Derives w d.locations →
      Derives (u ++ .name "directive" :: .mark .atSign :: .name d.name :: (v ++
        ((if d.repeatable then [.name "repeatable"] else []) ++ .name "on" :: w))) d

/-- A definition. Extensions are not described and add something. -/
inductive Definition.Derives : Phrase → Definition → Prop
  | operation {u : Phrase} {d : OperationDefinition} : OperationDefinition.Derives u d →
      Derives u (.operation d)
  | fragment {u : Phrase} {d : FragmentDefinition} : FragmentDefinition.Derives u d →
      Derives u (.fragment d)
  | schema {u : Phrase} {d : SchemaDefinition} : SchemaDefinition.Derives u d →
      d.operationTypes ≠ [] → Derives u (.schema d)
  | type {u : Phrase} {d : TypeDefinition} : TypeDefinition.Derives u d → Derives u (.type d)
  | directive {u : Phrase} {d : DirectiveDefinition} : DirectiveDefinition.Derives u d →
      Derives u (.directive d)
  | schemaExtension {u : Phrase} {d : SchemaDefinition} : SchemaDefinition.Derives u d →
      d.description = none → d.addsNothing = false →
      Derives (.name "extend" :: u) (.schemaExtension d)
  | typeExtension {u : Phrase} {d : TypeDefinition} : TypeDefinition.Derives u d →
      d.description = none → d.addsNothing = false →
      Derives (.name "extend" :: u) (.typeExtension d)

inductive Document.Derives : Phrase → Document → Prop
  | intro {ws : Phrase} (d : Document) : Many Definition.Derives ws d.definitions →
      d.definitions ≠ [] → Derives ws d

namespace TypeContent

/-- Whether fields or values in braces could still follow. -/
def isOpen : TypeContent → Bool
  | object _ fields | interface _ fields => fields.isEmpty
  | enum values => values.isEmpty
  | inputObject fields => fields.isEmpty
  | scalar | union _ => false

end TypeContent

namespace Definition

def isOpen : Definition → Bool
  | type d | typeExtension d => d.content.isOpen
  | schemaExtension d => d.operationTypes.isEmpty
  | _ => false

end Definition

/-- Definitions of which none that is open is followed by a brace. -/
inductive Definition.Apart : Phrase → List Definition → Prop
  | nil : Apart [] []
  | cons {u v : Phrase} {d : Definition} {ds : List Definition} : Definition.Derives u d →
      Apart v ds → (d.isOpen = true → ¬ v.IsBraced) → Apart (u ++ v) (d :: ds)

/-- A document in which every brace belongs to the definition before it if it can. -/
inductive Document.DerivesApart : Phrase → Document → Prop
  | intro {ws : Phrase} (d : Document) : Definition.Apart ws d.definitions →
      d.definitions ≠ [] → DerivesApart ws d

theorem Definition.Apart.derives {ws : Phrase} {ds : List Definition}
    (h : Definition.Apart ws ds) : Many Definition.Derives ws ds := by
  induction h with
  | nil => exact .nil
  | cons hd _ _ ih => exact .cons hd ih

end GraphQLText
