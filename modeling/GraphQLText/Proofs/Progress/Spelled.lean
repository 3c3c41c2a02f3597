import GraphQLText.Proofs.Progress.Recursion
import GraphQLText.Proofs.Progress.Simulation
import GraphQLText.Production

/-!
# The programs of the productions

The program that a reader spells out is found from the text of the reader. Along with it comes what
makes it end: every item that it repeats takes a token, and a step of a recursion takes a token
before the recursion goes on. It also comes with where it gives up: only where the symbol ahead was
looked at.
-/

namespace GraphQLText

set_option autoImplicit false

open Reader

/-- The program that a reader spells out, whose items take tokens and which gives up in sight only. A
guarded one calls nothing before it takes a token. If `held`, the symbol ahead was looked at before
the program begins. -/
class Spelled (guarded held : Bool) {α : Type} (r : Reader α) where
  program : Program α
  read_program : program.read = r
  productive : program.Productive
  guarded_program : guarded = true → program.Guarded
  inSight : program.FailsInSight (held = true)

namespace Spelled

variable {g h : Bool} {α β : Type}

theorem inSight_of_unheld {r : Reader α} (hr : Spelled g false r) {seen : Prop} :
    hr.program.FailsInSight seen :=
  hr.inSight.mono nofun

instance pure (a : α) : Spelled g h (pure a : Reader α) where
  program := .pure a
  read_program := rfl
  productive := trivial
  guarded_program _ := trivial
  inSight := trivial

instance fail (expected : Construct) : Spelled g true (fail expected : Reader α) where
  program := .fail expected
  read_program := rfl
  productive := trivial
  guarded_program _ := trivial
  inSight := rfl

abbrev ofOp {r : Reader α} (op : Op α) (hop : op.read = r) : Spelled g h r where
  program := .ask op
  read_program := hop
  productive := trivial
  guarded_program _ := trivial
  inSight := trivial

instance : Spelled g h peek :=
  ofOp .peek rfl

instance : Spelled g h nextStart :=
  ofOp .start rfl

instance (t : Token) : Spelled g h (eat t) :=
  ofOp (.eat t) rfl

theorem read_at? (t : Token) : (Op.at? (.token t)).read = at? t := by
  funext c
  have hiff := Program.token?_eq_some_iff (s := c.sight.symbol) (t := t)
  rw [← c.next?_eq_sight] at hiff
  have hfound : (c.next? == some t) = (c.sight.symbol == .token t) := by
    rw [Bool.eq_iff_iff, beq_iff_eq, beq_iff_eq, hiff]
  simp only [Op.read, at?, hfound]

instance (t : Token) : Spelled g h (at? t) :=
  ofOp (.at? (.token t)) (read_at? t)

instance token (expected : Construct) (accept : Token → Option α) :
    Spelled g h (token expected accept) :=
  ofOp (.take expected accept) rfl

instance (t : Token) (expected : Construct) : Spelled g h (expect t expected) :=
  token _ _

instance (expected : Construct) : Spelled g h (nameToken expected) :=
  token _ _

section Parts

variable {r : Reader α}

instance bind {f : α → Reader β} [hr : Spelled g h r] [hf : ∀ a, Spelled g false (f a)] :
    Spelled g h (r >>= f) where
  program := .bind hr.program fun a => (hf a).program
  read_program := by simp only [Program.read, hr.read_program, (hf _).read_program]
  productive := ⟨hr.productive, fun a => (hf a).productive⟩
  guarded_program hg := ⟨hr.guarded_program hg, .inr fun a => (hf a).guarded_program hg⟩
  inSight := ⟨hr.inSight, fun a => (hf a).inSight_of_unheld⟩

/-- Behind a token, anything may be called. -/
instance bind_consuming {f : α → Reader β} [hr : Spelled g h r] [Consuming r]
    [hf : ∀ a, Spelled false false (f a)] : Spelled g h (r >>= f) where
  program := .bind hr.program fun a => (hf a).program
  read_program := by simp only [Program.read, hr.read_program, (hf _).read_program]
  productive := ⟨hr.productive, fun a => (hf a).productive⟩
  guarded_program hg := ⟨hr.guarded_program hg, .inl (by rw [hr.read_program]; infer_instance)⟩
  inSight := ⟨hr.inSight, fun a => (hf a).inSight_of_unheld⟩

/-- A program may give up at what it has looked at. -/
abbrev bind_looking {f : α → Reader β} (hr : Spelled g h r)
    (hlooks : ∀ a, hr.program.LooksAhead (h = true) a) (hf : ∀ a, Spelled g true (f a)) :
    Spelled g h (r >>= f) where
  program := .bind hr.program fun a => (hf a).program
  read_program := by simp only [Program.read, hr.read_program, (hf _).read_program]
  productive := ⟨hr.productive, fun a => (hf a).productive⟩
  guarded_program hg := ⟨hr.guarded_program hg, .inr fun a => (hf a).guarded_program hg⟩
  inSight := ⟨hr.inSight, fun a => (hf a).inSight.mono fun _ => hlooks a⟩

instance peek_bind {f : Option Token → Reader β} [hf : ∀ o, Spelled g true (f o)] :
    Spelled g h (peek >>= f) :=
  bind_looking inferInstance (fun _ => trivial) hf

instance at?_bind {t : Token} {f : Bool → Reader β} [hf : ∀ found, Spelled g true (f found)] :
    Spelled g h (at? t >>= f) :=
  bind_looking inferInstance (fun _ => trivial) hf

/-- A program may give up for want of something that it would have taken the symbol ahead for. -/
abbrev bind_unless {f : α → Reader β} {lacking : α → Bool} {expected : Construct}
    (hr : Spelled g h r) (hlooks : ∀ a, lacking a = true → hr.program.LooksAhead (h = true) a)
    (hf : ∀ a, Spelled g false (f a)) :
    Spelled g h (r >>= fun a => if lacking a then Reader.fail expected else f a) where
  program := .bind hr.program fun a => if lacking a then .fail expected else (hf a).program
  read_program := by
    rw [Program.read, hr.read_program]
    refine congrArg (r >>= ·) (funext fun a => ?_)
    split
    · rfl
    · exact (hf a).read_program
  productive := by
    refine ⟨hr.productive, fun a => ?_⟩
    dsimp only
    split
    · trivial
    · exact (hf a).productive
  guarded_program hg := by
    refine ⟨hr.guarded_program hg, .inr fun a => ?_⟩
    dsimp only
    split
    · trivial
    · exact (hf a).guarded_program hg
  inSight := by
    refine ⟨hr.inSight, fun a => ?_⟩
    dsimp only
    split
    · next hlacking => exact hlooks a hlacking
    · exact (hf a).inSight_of_unheld

instance map {f : α → β} [hr : Spelled g h r] : Spelled g h (f <$> r) where
  program := .bind hr.program fun a => .pure (f a)
  read_program := by simp only [Program.read, hr.read_program, bind_pure_comp]
  productive := ⟨hr.productive, fun _ => trivial⟩
  guarded_program hg := ⟨hr.guarded_program hg, .inr fun _ => trivial⟩
  inSight := ⟨hr.inSight, fun _ => trivial⟩

instance ite {p : Prop} [Decidable p] {s : Reader α} [hr : Spelled g h r] [hs : Spelled g h s] :
    Spelled g h (if p then r else s) where
  program := if p then hr.program else hs.program
  read_program := by
    split
    · exact hr.read_program
    · exact hs.read_program
  productive := by
    split
    · exact hr.productive
    · exact hs.productive
  guarded_program hg := by
    split
    · exact hr.guarded_program hg
    · exact hs.guarded_program hg
  inSight := by
    split
    · exact hr.inSight
    · exact hs.inSight

instance located {r : Reader (Span → α)} [hr : Spelled g true r] : Spelled g h (located r) where
  program := .bind (.ask .start) fun position => .bind hr.program fun node =>
    .bind (.ask (.spanFrom position)) fun span => .pure (node span)
  read_program := by
    funext c
    simp only [Program.read, hr.read_program, Reader.located, bind_apply, Op.read, nextStart]
    cases r c <;> rfl
  productive := ⟨trivial, fun _ => ⟨hr.productive, fun _ => ⟨trivial, fun _ => trivial⟩⟩⟩
  guarded_program hg := ⟨trivial, .inr fun _ =>
    ⟨hr.guarded_program hg, .inr fun _ => ⟨trivial, .inr fun _ => trivial⟩⟩⟩
  inSight := ⟨trivial, fun _ =>
    ⟨hr.inSight.mono fun _ => trivial, fun _ => ⟨trivial, fun _ => trivial⟩⟩⟩

instance relabel {expected : Construct} [hr : Spelled g h r] :
    Spelled g h (relabel expected r) where
  program := .relabel expected hr.program
  read_program := by rw [Program.read, hr.read_program]
  productive := hr.productive
  guarded_program := hr.guarded_program
  inSight := hr.inSight

variable {item : Reader α}

instance whileMore {more : Reader Bool} [hm : Spelled g false more] [hi : Spelled g false item]
    [hc : Consuming item] : Spelled g h (whileMore more item) where
  program := .loop hm.program hi.program id
  read_program := by simp [Program.read, hm.read_program, hi.read_program]
  productive := ⟨hm.productive, hi.productive, by rwa [hi.read_program]⟩
  guarded_program hg := ⟨hm.guarded_program hg, hi.guarded_program hg⟩
  inSight := ⟨hm.inSight_of_unheld, hi.inSight_of_unheld⟩

instance (close : Punctuator) [Spelled g false item] [Consuming item] :
    Spelled g h (untilClosed close item) := by
  unfold untilClosed
  infer_instance

instance (opening close : Punctuator) [Spelled g false item] [Consuming item] :
    Spelled g h (enclosed opening close item) := by
  unfold enclosed
  infer_instance

/-- Items between two tokens are missing only if the first token was looked for. -/
theorem looksAhead_enclosed {opening close : Punctuator} [Spelled g false item] [Consuming item]
    {seen : Prop} : (program g h (enclosed opening close item)).LooksAhead seen [] := by
  intro found
  cases found with
  | false => exact fun _ => rfl
  | true => exact fun _ _ => nofun

instance (separator : Punctuator) [Spelled g false item] [Consuming item] :
    Spelled g h (separated separator item) := by
  unfold separated
  infer_instance

instance (t : Token) [Spelled g false r] : Spelled g h (behind? t r) := by
  unfold behind?
  infer_instance

end Parts

end Spelled

section Steps

variable {g h : Bool}

instance : Spelled g h TypeName.read := by
  unfold TypeName.read
  infer_instance

instance : Spelled g h Variable.read := by
  unfold Variable.read
  infer_instance

instance : Spelled g h BooleanValue.read := by
  unfold BooleanValue.read
  infer_instance

instance : Spelled g h StringValue.read := by
  unfold StringValue.read
  infer_instance

instance : Spelled g h Literal.readInt := by
  unfold Literal.readInt
  infer_instance

instance : Spelled g h Literal.readFloat := by
  unfold Literal.readFloat
  infer_instance

instance : Spelled g h Literal.readEnum := by
  unfold Literal.readEnum
  infer_instance

section Values

instance {ν : Type} (expected : Construct) (value : Reader ν) [Spelled false false value] :
    Spelled g h (NamedValue.read expected value) := by
  unfold NamedValue.read
  infer_instance

instance {α : Type} (opening close : Punctuator) (expected : Construct) (item : Reader α)
    [Spelled false false item] [Consuming item] :
    Spelled g h (Bracketed.read opening close expected item) := by
  unfold Bracketed.read
  infer_instance

instance (constant : Bool) (value : Reader Value) [Spelled false false value] [Forward value]
    [Consuming value] :
    Spelled g h (Value.readStep constant value) := by
  refine @Spelled.peek_bind _ _ _ _ fun o => ?_
  unfold Value.readListOf Value.readObjectOf
  split <;> infer_instance

instance (constant : Bool) : Spelled false h (Value.read constant) where
  program := .call (.value constant)
  read_program := rfl
  productive := trivial
  guarded_program := nofun
  inSight := trivial

instance (constant : Bool) : Spelled g h (ListValue.read constant) := by
  unfold ListValue.read Value.readListOf
  infer_instance

instance (constant : Bool) : Spelled g h (ObjectValue.read constant) := by
  unfold ObjectValue.read Value.readObjectOf
  infer_instance

instance (constant : Bool) : Spelled g h (ObjectField.read constant) := by
  unfold ObjectField.read
  infer_instance

instance (constant : Bool) : Spelled g h (Argument.read constant) := by
  unfold Argument.read
  infer_instance

instance (constant : Bool) : Spelled g h (Argument.readAll constant) := by
  unfold Argument.readAll Argument.read
  infer_instance

instance : Spelled false h Value.readDefault? := by
  unfold Value.readDefault?
  infer_instance

instance (constant : Bool) : Spelled g h (Directive.read constant) := by
  unfold Directive.read
  infer_instance

instance (constant : Bool) : Spelled g h (Directive.readAll constant) := by
  unfold Directive.readAll
  infer_instance

example (constant : Bool) :
    Spelled.program false false (Directive.readAll constant) =
      .loop (.ask (.at? (.token (.punctuator .atSign))))
        (Spelled.program false false (Directive.read constant)) id :=
  rfl

end Values

instance (inner : Reader TypeRef) [Spelled false false inner] :
    Spelled g h (TypeRef.readUnmarkedStep inner) := by
  refine @Spelled.peek_bind _ _ _ _ fun o => ?_
  split <;> infer_instance

instance (inner : Reader TypeRef) [Spelled false false inner] :
    Spelled g h (TypeRef.readStep inner) := by
  unfold TypeRef.readStep
  infer_instance

instance : Spelled false h TypeRef.read where
  program := .call .type
  read_program := rfl
  productive := trivial
  guarded_program := nofun
  inSight := trivial

section Selections

variable {selection : Reader Selection} [Spelled false false selection] [Forward selection]
  [Consuming selection]

instance : Spelled false h (SelectionSet.readOf selection) := by
  unfold SelectionSet.readOf
  infer_instance

instance (expected : Construct) : Spelled false h (SelectionSet.readBodyOf expected selection) := by
  unfold SelectionSet.readBodyOf
  infer_instance

instance : Spelled g h (Field.readOf selection) := by
  unfold Field.readOf
  infer_instance

instance : Spelled g h FragmentSpread.read := by
  unfold FragmentSpread.read
  infer_instance

instance : Spelled false h (InlineFragment.readOf selection) := by
  unfold InlineFragment.readOf
  infer_instance

instance : Spelled g h (Selection.readFragmentStep selection) := by
  refine @Spelled.located _ _ _ _
    (@Spelled.bind_consuming _ _ _ _ _ _ inferInstance inferInstance fun _ =>
      @Spelled.peek_bind _ _ _ _ fun o => ?_)
  split <;> infer_instance

instance : Spelled g h (Selection.readStep selection) := by
  refine @Spelled.peek_bind _ _ _ _ fun o => ?_
  split <;> infer_instance

instance : Spelled false h Selection.read where
  program := .call .selection
  read_program := rfl
  productive := trivial
  guarded_program := nofun
  inSight := trivial

end Selections

instance : Spelled g h Field.read := by
  unfold Field.read
  infer_instance

instance : Spelled false h InlineFragment.read := by
  unfold InlineFragment.read
  infer_instance

section Operations

instance : Spelled g h OperationKind.read := by
  unfold OperationKind.read
  infer_instance

instance : Spelled false h SelectionSet.read := by
  unfold SelectionSet.read
  infer_instance

instance : Spelled false h VariableDefinition.read := by
  unfold VariableDefinition.read
  infer_instance

instance : Spelled false h VariableDefinition.readAll := by
  unfold VariableDefinition.readAll
  infer_instance

instance : Spelled false h OperationDefinition.readName? := by
  refine @Spelled.peek_bind _ _ _ _ fun o => ?_
  split <;> infer_instance

instance : Spelled false h OperationDefinition.readLong := by
  unfold OperationDefinition.readLong
  infer_instance

instance : Spelled false h OperationDefinition.readShorthand := by
  unfold OperationDefinition.readShorthand
  infer_instance

instance : Spelled false h OperationDefinition.read := by
  unfold OperationDefinition.read
  infer_instance

instance : Spelled false h FragmentDefinition.read := by
  unfold FragmentDefinition.read
  infer_instance

end Operations

section TypeSystem

instance : Spelled g h StringValue.readDescription? := by
  refine @Spelled.peek_bind _ _ _ _ fun o => ?_
  split <;> infer_instance

instance : Spelled false h InputValueDefinition.read := by
  unfold InputValueDefinition.read
  infer_instance

instance : Spelled false h InputValueDefinition.readArguments := by
  unfold InputValueDefinition.readArguments
  infer_instance

instance : Spelled false h InputValueDefinition.readFields := by
  unfold InputValueDefinition.readFields
  infer_instance

instance (constant : Bool) : Spelled false h (FieldDefinition.read constant) := by
  unfold FieldDefinition.read
  infer_instance

instance (constant : Bool) : Spelled false h (FieldDefinition.readAll constant) := by
  unfold FieldDefinition.readAll
  infer_instance

instance (constant : Bool) : Spelled false h (EnumValueDefinition.read constant) := by
  unfold EnumValueDefinition.read
  infer_instance

instance (constant : Bool) : Spelled false h (EnumValueDefinition.readAll constant) := by
  unfold EnumValueDefinition.readAll
  infer_instance

instance (introducer : Token) (separator : Punctuator) :
    Spelled false h (TypeName.readListBehind introducer separator) := by
  unfold TypeName.readListBehind
  infer_instance

theorem TypeName.looksAhead_readListBehind {introducer : Token} {separator : Punctuator}
    {seen : Prop} :
    (Spelled.program false h (readListBehind introducer separator)).LooksAhead seen [] := by
  intro found
  cases found with
  | false => exact fun _ => rfl
  | true => exact fun _ _ _ => nofun

instance : Spelled false h TypeName.readInterfaces := by
  unfold TypeName.readInterfaces
  infer_instance

instance : Spelled false h TypeName.readMembers := by
  unfold TypeName.readMembers
  infer_instance

instance (kind : TypeKind) : Spelled false h (TypeContent.readWithDirectives kind) := by
  unfold TypeContent.readWithDirectives
  cases kind <;> infer_instance

/-- What a type has besides its directives is read last, and looked for if it is missing. -/
theorem TypeContent.looksAhead_readWithDirectives {kind : TypeKind} {directives : List Directive}
    {content : TypeContent} (hempty : content.isEmpty = true) {seen : Prop} :
    (Spelled.program false h (readWithDirectives kind)).LooksAhead seen (directives, content) := by
  cases kind with
  | scalar => exact fun _ _ => trivial
  | object | interface =>
    rintro _ _ fields ⟨⟩
    rw [isEmpty, Bool.and_eq_true] at hempty
    obtain rfl := List.isEmpty_iff.mp hempty.2
    exact Spelled.looksAhead_enclosed
  | union =>
    rintro _ members ⟨⟩
    obtain rfl := List.isEmpty_iff.mp hempty
    exact TypeName.looksAhead_readListBehind
  | enum | inputObject =>
    rintro _ _ ⟨⟩
    obtain rfl := List.isEmpty_iff.mp hempty
    exact Spelled.looksAhead_enclosed

instance (kind : TypeKind) (description : Option StringValue) :
    Spelled false h (TypeDefinition.readBody kind description) := by
  unfold TypeDefinition.readBody
  infer_instance

theorem TypeDefinition.looksAhead_readBody {kind : TypeKind} {description : Option StringValue}
    {d : Span → TypeDefinition} (hempty : (d Span.zero).content.isEmpty = true) {seen : Prop} :
    (Spelled.program false h (readBody kind description)).LooksAhead seen d := by
  rintro _ _ rfl
  exact TypeContent.looksAhead_readWithDirectives hempty

instance (kind : TypeKind) : Spelled false h (TypeDefinition.readOf kind) := by
  unfold TypeDefinition.readOf
  infer_instance

instance : Spelled false h TypeDefinition.read := by
  unfold TypeDefinition.read
  infer_instance

instance : Spelled false h RootOperationType.read := by
  unfold RootOperationType.read
  infer_instance

instance : Spelled false h RootOperationType.readAll := by
  unfold RootOperationType.readAll
  infer_instance

instance (description : Option StringValue) :
    Spelled false h (SchemaDefinition.readParts description) := by
  unfold SchemaDefinition.readParts
  infer_instance

theorem SchemaDefinition.looksAhead_readParts {description : Option StringValue}
    {schema : Span → SchemaDefinition} (hnone : (schema Span.zero).operationTypes = [])
    {seen : Prop} :
    (Spelled.program false h (readParts description)).LooksAhead seen schema := by
  intro directives operationTypes hschema
  subst hschema
  obtain rfl : operationTypes = [] := hnone
  exact Spelled.looksAhead_enclosed

instance (description : Option StringValue) :
    Spelled false h (SchemaDefinition.readBody description) := by
  refine Spelled.bind_unless inferInstance (fun schema hnone => ?_) fun _ => inferInstance
  exact SchemaDefinition.looksAhead_readParts (List.isEmpty_iff.mp hnone)

instance : Spelled false h SchemaDefinition.read := by
  unfold SchemaDefinition.read
  infer_instance

instance : Spelled false h DirectiveLocation.read := by
  unfold DirectiveLocation.read
  infer_instance

instance : Spelled false h DirectiveLocation.readAll := by
  unfold DirectiveLocation.readAll
  infer_instance

instance (description : Option StringValue) :
    Spelled false h (DirectiveDefinition.readBody description) := by
  unfold DirectiveDefinition.readBody
  infer_instance

instance : Spelled false h DirectiveDefinition.read := by
  unfold DirectiveDefinition.read
  infer_instance

end TypeSystem

section Documents

instance : Spelled false h Definition.readTypeSystem := by
  refine @Spelled.located _ _ _ _ (@Spelled.bind _ _ _ _ _ _ inferInstance fun _ =>
    @Spelled.bind _ _ _ _ _ _ inferInstance fun part => ?_)
  cases part <;> infer_instance

instance : Spelled false h Definition.readExtension := by
  refine @Spelled.located _ _ _ _ (@Spelled.bind _ _ _ _ _ _ inferInstance fun _ =>
    @Spelled.bind _ _ _ _ _ _ inferInstance fun kind => ?_)
  cases kind with
  | none =>
    refine Spelled.bind_unless inferInstance (fun d hnothing => ?_) fun _ => inferInstance
    rw [SchemaDefinition.addsNothing, Bool.and_eq_true] at hnothing
    exact SchemaDefinition.looksAhead_readParts (List.isEmpty_iff.mp hnothing.2)
  | some kind =>
    refine Spelled.bind_unless inferInstance (fun d hnothing => ?_) fun _ => inferInstance
    rw [TypeDefinition.addsNothing, Bool.and_eq_true] at hnothing
    exact TypeDefinition.looksAhead_readBody hnothing.2

instance : Spelled false h Definition.read := by
  refine @Spelled.peek_bind _ _ _ _ fun o => ?_
  split <;> infer_instance

instance : Spelled false h Document.more where
  program := .bind (.ask (.at? .endOfInput)) fun found => .pure !found
  read_program := by
    funext c
    simp only [Program.read, bind_apply, Op.read, Document.more, c.isComplete_eq_sight]
    rfl
  productive := ⟨trivial, fun _ => trivial⟩
  guarded_program := nofun
  inSight := ⟨trivial, fun _ => trivial⟩

instance : Spelled false h Document.read :=
  @Spelled.located _ _ _ _ (Spelled.bind_looking inferInstance (fun _ _ _ => trivial)
    fun _ => inferInstance)

end Documents

end Steps

def Nonterminal.body : (α : Type) → Nonterminal α → Program α
  | _, .value constant => Spelled.program true false (Value.readStep constant (Value.read constant))
  | _, .type => Spelled.program true false (TypeRef.readStep TypeRef.read)
  | _, .selection => Spelled.program true false (Selection.readStep Selection.read)

/-- A guarded program may be called as the reader that it spells out. -/
theorem Spelled.isBody {α : Type} {t : Nonterminal α} {r : Reader α} [hr : Spelled true false r]
    (h : t.read = r) : Program.IsBody t (Spelled.program true false r) :=
  ⟨hr.read_program.trans h.symm, hr.productive, hr.guarded_program rfl, hr.inSight_of_unheld⟩

theorem Nonterminal.isBody (α : Type) (t : Nonterminal α) : Program.IsBody t (t.body α) := by
  cases t with
  | value constant => exact Spelled.isBody (Value.read_eq_readStep constant)
  | type => exact Spelled.isBody TypeRef.read_eq_readStep
  | selection => exact Spelled.isBody Selection.read_eq_readStep

namespace Production

instance (p : Production) : Spelled false false p.read := by
  apply @casesOn (fun p => Spelled false false p.read) p
  all_goals
    unfold read
    infer_instance

def program (p : Production) : Program p.Node :=
  Spelled.program false false p.read

theorem read_program (p : Production) : p.program.read = p.read :=
  Spelled.read_program

theorem productive_program (p : Production) : p.program.Productive :=
  Spelled.productive

theorem inSight_program (p : Production) : p.program.FailsInSight False :=
  Spelled.inSight_of_unheld _

end Production

end GraphQLText
