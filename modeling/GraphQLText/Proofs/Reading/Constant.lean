import GraphQLText.Production
import GraphQLText.Proofs.Reading.Source

/-!
# Constant places

No variable may stand in a default, nor in an argument of a directive at a variable or in a schema.
The readers of the nodes that have such places keep variables out of them, at any depth. Only the
readers of field definitions and of enum values leave the directives directly at these to the
definition around them, and so let variables in when they are entered on their own.
-/

namespace GraphQLText

set_option autoImplicit false

open Reader

namespace Value

inductive Mentions (x : Variable) : Value → Prop
  | here : Mentions x (.variable x)
  | item {l : ListValue} {v : Value} : v ∈ l.items → Mentions x v → Mentions x (.list l)
  | field {o : ObjectValue} {f : ObjectField} : f ∈ o.items → Mentions x f.value →
      Mentions x (.object o)

/-- No variable occurs in the value. -/
def IsConstant (v : Value) : Prop :=
  ∀ x, ¬ v.Mentions x

end Value

def Directive.values (ds : List Directive) : List Value :=
  ds.flatMap fun d => d.arguments.map NamedValue.value

/-- The values in the constant places of the node. -/
def VariableDefinition.constants (d : VariableDefinition) : List Value :=
  d.default.toList ++ Directive.values d.directives

def InputValueDefinition.constants (d : InputValueDefinition) : List Value :=
  d.default.toList ++ Directive.values d.directives

def FieldDefinition.argumentConstants (d : FieldDefinition) : List Value :=
  d.arguments.flatMap InputValueDefinition.constants

def FieldDefinition.constants (d : FieldDefinition) : List Value :=
  d.argumentConstants ++ Directive.values d.directives

def EnumValueDefinition.constants (d : EnumValueDefinition) : List Value :=
  Directive.values d.directives

def TypeContent.constants : TypeContent → List Value
  | .scalar | .union _ => []
  | .object _ fields | .interface _ fields => fields.flatMap FieldDefinition.constants
  | .enum values => values.flatMap EnumValueDefinition.constants
  | .inputObject fields => fields.flatMap InputValueDefinition.constants

def TypeDefinition.constants (d : TypeDefinition) : List Value :=
  Directive.values d.directives ++ d.content.constants

def SchemaDefinition.constants (d : SchemaDefinition) : List Value :=
  Directive.values d.directives

def DirectiveDefinition.constants (d : DirectiveDefinition) : List Value :=
  d.arguments.flatMap InputValueDefinition.constants

def OperationDefinition.constants (o : OperationDefinition) : List Value :=
  o.variableDefinitions.flatMap VariableDefinition.constants

def Definition.constants : Definition → List Value
  | .operation d => d.constants
  | .fragment _ => []
  | .schema d | .schemaExtension d => d.constants
  | .type d | .typeExtension d => d.constants
  | .directive d => d.constants

def Document.constants (d : Document) : List Value :=
  d.definitions.flatMap Definition.constants

namespace Production

def constants : (p : Production) → p.Node → List Value
  | .variableDefinition, d => d.constants
  | .variableDefinitions, ds => ds.flatMap VariableDefinition.constants
  | .operationDefinition, d => d.constants
  | .inputValueDefinition, d => d.constants
  | .argumentsDefinition, ds | .inputFieldsDefinition, ds =>
    ds.flatMap InputValueDefinition.constants
  | .fieldDefinition, d => d.constants
  | .fieldsDefinition, ds => ds.flatMap FieldDefinition.constants
  | .enumValueDefinition, d => d.constants
  | .enumValuesDefinition, ds => ds.flatMap EnumValueDefinition.constants
  | .typeDefinition, d | .typeDefinitionOf _, d => d.constants
  | .schemaDefinition, d => d.constants
  | .directiveDefinition, d => d.constants
  | .definition, d => d.constants
  | .document, d => d.constants
  | _, _ => []

/-- The values in those constant places from which the reader of the production itself keeps
variables. -/
def guarded : (p : Production) → p.Node → List Value
  | .fieldDefinition, d => d.argumentConstants
  | .fieldsDefinition, ds => ds.flatMap FieldDefinition.argumentConstants
  | .enumValueDefinition, _ | .enumValuesDefinition, _ => []
  | p, node => p.constants node

end Production

namespace Reader

variable {α : Type}

def Gives (r : Reader α) (P : α → Prop) : Prop :=
  ∀ c, Always r c fun a _ => P a

variable {item : Reader α} {P : α → Prop}

theorem Gives.whileMore (h : Gives item P) (more : Reader Bool) :
    Gives (whileMore more item) fun as => ∀ a ∈ as, P a := by
  intro c
  induction hn : c.tokens.length using Nat.strongRecOn generalizing c with
  | ind n ih =>
    unfold Always
    rw [whileMore_apply]
    refine always_bind.mpr fun b d _ => always_ite.mpr
      ⟨fun _ => always_bind.mpr ?_, fun _ => always_pure.mpr (by simp)⟩
    refine (h d).mono fun a e ha as f hr => ?_
    simp only at hr
    split at hr
    · next hlt =>
      have hmap : Always (List.cons a <$> Reader.whileMore more item) e
          fun as _ => ∀ a ∈ as, P a := by
        refine always_map.mpr ((ih e.tokens.length (by omega) e rfl).mono ?_)
        exact fun as _ has => List.forall_mem_cons.mpr ⟨ha, has⟩
      exact hmap as f hr
    · obtain ⟨rfl, rfl⟩ := hr
      simpa using ha

theorem Gives.enclosed (h : Gives item P) (opening close : Punctuator) :
    Gives (enclosed opening close item) fun as => ∀ a ∈ as, P a := by
  intro c
  rw [Reader.enclosed, always_bind, always_eat]
  refine ⟨fun _ => ?_, fun _ => ?_⟩
  · simp only [if_true, always_bind, always_pure]
    refine (h _).mono fun a d ha => (h.whileMore _ d).mono fun as _ has => ?_
    exact List.forall_mem_cons.mpr ⟨ha, has⟩
  · simp [always_pure]

theorem Gives.behind (h : Gives item P) (t : Token) :
    Gives (behind? t item) fun o => ∀ a ∈ o, P a := by
  intro c
  rw [behind?, always_bind, always_eat]
  refine ⟨fun _ => ?_, fun _ => ?_⟩
  · simp only [if_true, always_map]
    exact (h _).mono fun a _ ha => by simpa using ha
  · simp [always_pure]

end Reader

theorem Value.Derives.isConstant {ws : Phrase} {v : Value} (h : Value.Derives true ws v) :
    v.IsConstant := by
  induction v using Value.induction generalizing ws with
  | var v => cases h with | var hc _ => exact absurd hc (by simp)
  | list l ih =>
    cases h with
    | list _ hm =>
      rintro x (_ | ⟨hv, hx⟩ | _)
      obtain ⟨u, hu⟩ := hm.exists_of_mem hv
      exact ih _ hv hu x hx
  | object o ih =>
    cases h with
    | object _ hm =>
      rintro x (_ | _ | ⟨hf, hx⟩)
      obtain ⟨u, hu⟩ := hm.exists_of_mem hf
      cases hu with
      | intro _ hv => exact ih _ hf hv x hx
  | _ => rintro x ⟨⟩

theorem Value.gives_read : Gives (Value.read true) IsConstant :=
  fun c => (Value.sound_read true c).mono fun _ _ ⟨_, hg, _⟩ => hg.isConstant

theorem Value.gives_readDefault :
    Gives Value.readDefault? fun default => ∀ v ∈ default, v.IsConstant :=
  Value.gives_read.behind _

theorem Argument.gives_readAll :
    Gives (Argument.readAll true) fun as => ∀ a ∈ as, a.value.IsConstant := by
  refine Gives.enclosed (fun c => ?_) _ _
  refine (Argument.sound_read true c).mono ?_
  rintro a _ ⟨_, ⟨_, hv⟩, _⟩
  exact hv.isConstant

theorem Directive.gives_readAll :
    Gives (Directive.readAll true) fun ds => ∀ v ∈ Directive.values ds, v.IsConstant := by
  have hread : Gives (Directive.read true) fun d => ∀ a ∈ d.arguments, a.value.IsConstant := by
    intro c
    simp only [Directive.read, always_located, always_bind, always_expect, always_nameToken,
      always_pure]
    intro _ _ _
    exact Argument.gives_readAll _
  refine fun c => (hread.whileMore _ c).mono fun ds _ hds v hv => ?_
  simp only [Directive.values, List.mem_flatMap, List.mem_map] at hv
  obtain ⟨d, hd, a, ha, rfl⟩ := hv
  exact hds d hd a ha

section Parts

variable {α : Type} {item : Reader α} {constants : α → List Value}

/-- Lists of items have no variables in their constant places if the items have none. -/
theorem Reader.Gives.enclosed_constants (h : Gives item fun a => ∀ v ∈ constants a, v.IsConstant)
    (opening close : Punctuator) :
    Gives (Reader.enclosed opening close item) fun as =>
      ∀ v ∈ as.flatMap constants, v.IsConstant := by
  refine fun c => (h.enclosed opening close c).mono fun as _ has v hv => ?_
  obtain ⟨a, ha, hva⟩ := List.mem_flatMap.mp hv
  exact has a ha v hva

end Parts

theorem VariableDefinition.gives_read :
    Gives VariableDefinition.read fun d => ∀ v ∈ d.constants, v.IsConstant := by
  intro c
  simp only [VariableDefinition.read, always_located, always_bind, always_expect, always_pure]
  refine fun _ d₁ _ _ _ d₂ _ => (Value.gives_readDefault d₂).mono fun default d₃ hdefault => ?_
  refine (Directive.gives_readAll d₃).mono fun directives _ hdirectives => ?_
  simp only [constants, List.forall_mem_append, Option.mem_toList]
  exact ⟨hdefault, hdirectives⟩

theorem InputValueDefinition.gives_read :
    Gives InputValueDefinition.read fun d => ∀ v ∈ d.constants, v.IsConstant := by
  intro c
  simp only [InputValueDefinition.read, always_located, always_bind, always_nameToken,
    always_expect, always_pure]
  refine fun _ d₁ _ _ _ _ _ d₂ _ =>
    (Value.gives_readDefault d₂).mono fun default d₃ hdefault => ?_
  refine (Directive.gives_readAll d₃).mono fun directives _ hdirectives => ?_
  simp only [constants, List.forall_mem_append, Option.mem_toList]
  exact ⟨hdefault, hdirectives⟩

/-- The arguments of a field are guarded wherever it stands, its directives only where it is in a
constant place. -/
theorem FieldDefinition.gives_read (constant : Bool) :
    Gives (FieldDefinition.read constant) fun d =>
      (∀ v ∈ d.argumentConstants, v.IsConstant) ∧
        (constant = true → ∀ v ∈ d.constants, v.IsConstant) := by
  intro c
  simp only [FieldDefinition.read, always_located, always_bind, always_nameToken, always_expect,
    always_pure]
  refine fun _ d₁ _ _ _ =>
    (InputValueDefinition.gives_read.enclosed_constants _ _ _).mono fun arguments d₂ harguments => ?_
  refine fun _ _ d₃ _ directives d₄ hr => ⟨harguments, ?_⟩
  rintro rfl
  simp only [constants, List.forall_mem_append]
  exact ⟨harguments, Directive.gives_readAll d₃ directives d₄ hr⟩

theorem EnumValueDefinition.gives_read :
    Gives (EnumValueDefinition.read true) fun d => ∀ v ∈ d.constants, v.IsConstant := by
  intro c
  simp only [EnumValueDefinition.read, always_located, always_bind, always_token, always_pure]
  exact fun _ _ _ _ _ _ _ => Directive.gives_readAll _

theorem TypeContent.gives_readWithDirectives (kind : TypeKind) :
    Gives (readWithDirectives kind) fun p =>
      ∀ v ∈ Directive.values p.1 ++ p.2.constants, v.IsConstant := by
  have hfields : Gives (FieldDefinition.readAll true) fun ds =>
      ∀ v ∈ ds.flatMap FieldDefinition.constants, v.IsConstant :=
    Gives.enclosed_constants (fun c => (FieldDefinition.gives_read true c).mono
      fun _ _ h => h.2 rfl) _ _
  intro c
  cases kind <;>
    simp only [readWithDirectives, always_bind, always_pure, List.forall_mem_append]
  · exact (Directive.gives_readAll c).mono fun _ _ h => ⟨h, by simp [constants]⟩
  · refine fun _ d₁ _ => (Directive.gives_readAll d₁).mono fun _ d₂ h₁ => ?_
    exact (hfields d₂).mono fun _ _ h₂ => ⟨h₁, h₂⟩
  · refine fun _ d₁ _ => (Directive.gives_readAll d₁).mono fun _ d₂ h₁ => ?_
    exact (hfields d₂).mono fun _ _ h₂ => ⟨h₁, h₂⟩
  · refine (Directive.gives_readAll c).mono fun _ d₁ h₁ => ?_
    exact fun _ _ _ => ⟨h₁, by simp [constants]⟩
  · refine (Directive.gives_readAll c).mono fun _ d₁ h₁ => ?_
    exact (EnumValueDefinition.gives_read.enclosed_constants _ _ d₁).mono fun _ _ h₂ => ⟨h₁, h₂⟩
  · refine (Directive.gives_readAll c).mono fun _ d₁ h₁ => ?_
    exact (InputValueDefinition.gives_read.enclosed_constants _ _ d₁).mono fun _ _ h₂ => ⟨h₁, h₂⟩

section Definitions

variable {kind : TypeKind} {description : Option StringValue}

theorem TypeDefinition.gives_readBody :
    Gives (readBody kind description) fun f => ∀ span, ∀ v ∈ (f span).constants, v.IsConstant := by
  intro c
  simp only [readBody, always_bind, always_pure]
  refine fun _ d₁ _ => (TypeContent.gives_readWithDirectives kind d₁).mono ?_
  exact fun _ _ h _ => h

theorem TypeDefinition.gives_readOf :
    Gives (readOf kind) fun d => ∀ v ∈ d.constants, v.IsConstant := by
  intro c
  simp only [readOf, always_located, always_bind, always_expect]
  exact fun _ _ _ _ => (gives_readBody _).mono fun _ _ h => h _

theorem TypeDefinition.gives_read :
    Gives read fun d => ∀ v ∈ d.constants, v.IsConstant := by
  intro c
  simp only [read, always_located, always_bind, always_token]
  exact fun _ _ _ _ _ _ _ => (gives_readBody _).mono fun _ _ h => h _

theorem SchemaDefinition.gives_readParts :
    Gives (readParts description) fun f => ∀ span, ∀ v ∈ (f span).constants, v.IsConstant := by
  intro c
  simp only [readParts, always_bind, always_pure]
  exact (Directive.gives_readAll c).mono fun _ _ h _ _ _ _ => h

theorem SchemaDefinition.gives_readBody :
    Gives (readBody description) fun f => ∀ span, ∀ v ∈ (f span).constants, v.IsConstant := by
  intro c
  simp only [readBody, always_bind, always_ite, always_pure]
  exact (gives_readParts c).mono fun _ _ h => ⟨fun _ => always_fail, fun _ => h⟩

theorem SchemaDefinition.gives_read :
    Gives read fun d => ∀ v ∈ d.constants, v.IsConstant := by
  intro c
  simp only [read, always_located, always_bind, always_expect]
  exact fun _ _ _ _ => (gives_readBody _).mono fun _ _ h => h _

theorem DirectiveDefinition.gives_readBody :
    Gives (readBody description) fun f => ∀ span, ∀ v ∈ (f span).constants, v.IsConstant := by
  intro c
  simp only [readBody, always_bind, always_expect, always_nameToken, always_pure]
  refine fun _ _ _ => (InputValueDefinition.gives_read.enclosed_constants _ _ _).mono ?_
  exact fun _ _ h _ _ _ _ _ _ _ _ => h

theorem DirectiveDefinition.gives_read :
    Gives read fun d => ∀ v ∈ d.constants, v.IsConstant := by
  intro c
  simp only [read, always_located, always_bind, always_expect]
  exact fun _ _ _ _ => (gives_readBody _).mono fun _ _ h => h _

theorem OperationDefinition.gives_read :
    Gives read fun o => ∀ v ∈ o.constants, v.IsConstant := by
  intro c
  simp only [read, readLong, readShorthand, always_bind, always_at?, always_ite, always_located,
    always_pure]
  refine ⟨fun _ _ _ _ => by simp [constants], fun _ _ _ _ _ d₂ _ => ?_⟩
  refine (VariableDefinition.gives_read.enclosed_constants _ _ d₂).mono ?_
  exact fun _ _ h _ _ _ _ _ _ => h

end Definitions

namespace Definition

theorem gives_readTypeSystem : Gives readTypeSystem fun d => ∀ v ∈ d.constants, v.IsConstant := by
  intro c
  simp only [readTypeSystem, always_located, always_bind, always_token]
  intro description d₁ _ _ part _ _
  cases part with
  | schema =>
    simp only [always_bind, always_pure]
    exact (SchemaDefinition.gives_readBody _).mono fun _ _ h => h _
  | directive =>
    simp only [always_bind, always_pure]
    exact (DirectiveDefinition.gives_readBody _).mono fun _ _ h => h _
  | type kind =>
    simp only [always_bind, always_pure]
    exact (TypeDefinition.gives_readBody _).mono fun _ _ h => h _

theorem gives_readExtension : Gives readExtension fun d => ∀ v ∈ d.constants, v.IsConstant := by
  intro c
  simp only [readExtension, always_located, always_bind, always_expect, always_token]
  intro _ _ kind _ _
  cases kind with
  | none =>
    simp only [always_bind, always_ite, always_pure]
    refine (SchemaDefinition.gives_readParts _).mono ?_
    exact fun _ _ h => ⟨fun _ => always_fail, fun _ => h _⟩
  | some kind =>
    simp only [always_bind, always_ite, always_pure]
    refine (TypeDefinition.gives_readBody _).mono ?_
    exact fun _ _ h => ⟨fun _ => always_fail, fun _ => h _⟩

theorem gives_read : Gives read fun d => ∀ v ∈ d.constants, v.IsConstant := by
  have hoperation : Gives (operation <$> OperationDefinition.read) fun d =>
      ∀ v ∈ d.constants, v.IsConstant :=
    fun c => always_map.mpr (OperationDefinition.gives_read c)
  intro c
  rw [read, always_bind, always_peek]
  split
  · exact hoperation c
  · exact gives_readTypeSystem c
  · exact gives_readTypeSystem c
  · exact always_map.mpr fun _ _ _ => by simp [constants]
  · exact gives_readExtension c
  · simp only [always_ite]
    exact ⟨fun _ => hoperation c, fun _ => ⟨fun _ => gives_readTypeSystem c, fun _ => always_fail⟩⟩
  · exact always_fail

end Definition

theorem Document.gives_read : Gives Document.read fun d => ∀ v ∈ d.constants, v.IsConstant := by
  intro c
  simp only [read, always_located, always_bind, always_ite, always_pure]
  refine (Definition.gives_read.whileMore more c).mono fun ds _ hds => ?_
  refine ⟨fun _ => always_fail, fun _ _ _ _ v hv => ?_⟩
  obtain ⟨d, hd, hvd⟩ := List.mem_flatMap.mp hv
  exact hds d hd v hvd

namespace Production

/-- Each production guards its own constant places. -/
theorem gives_read (p : Production) : Gives p.read fun node =>
    ∀ v ∈ p.guarded node, v.IsConstant := by
  cases p with
  | variableDefinition => exact VariableDefinition.gives_read
  | variableDefinitions => exact VariableDefinition.gives_read.enclosed_constants _ _
  | operationDefinition => exact OperationDefinition.gives_read
  | inputValueDefinition => exact InputValueDefinition.gives_read
  | argumentsDefinition => exact InputValueDefinition.gives_read.enclosed_constants _ _
  | inputFieldsDefinition => exact InputValueDefinition.gives_read.enclosed_constants _ _
  | fieldDefinition => exact fun c => (FieldDefinition.gives_read false c).mono fun _ _ h => h.1
  | fieldsDefinition =>
    refine Gives.enclosed_constants (fun c => ?_) _ _
    exact (FieldDefinition.gives_read false c).mono fun _ _ h => h.1
  | typeDefinition => exact TypeDefinition.gives_read
  | typeDefinitionOf kind => exact TypeDefinition.gives_readOf
  | schemaDefinition => exact SchemaDefinition.gives_read
  | directiveDefinition => exact DirectiveDefinition.gives_read
  | definition => exact Definition.gives_read
  | document => exact Document.gives_read
  | _ => exact fun c _ _ _ _ hv => absurd hv (by simp [guarded, constants])

/-- In a node that is read from a source, no variable occurs in a constant place that the production
guards, at any depth. -/
theorem isConstant_of_parse {p : Production} {source : String} {node : p.Node}
    (h : p.parse source = .ok node) {v : Value} (hv : v ∈ p.guarded node) : v.IsConstant := by
  obtain ⟨_, d, hr, rfl, _⟩ := Reader.parse_eq_ok_iff.mp h
  exact p.gives_read _ _ d hr v hv

def defaultedField : FieldDefinition where
  description := none
  name := "a"
  arguments := [⟨none, "b", .named ⟨"C", ⟨5, 6⟩⟩, some (.list ⟨[.int ⟨"1", ⟨10, 11⟩⟩], ⟨9, 12⟩⟩), [],
    ⟨2, 12⟩⟩]
  type := .named ⟨"D", ⟨15, 16⟩⟩
  directives := [⟨"e", [⟨"f", .variable ⟨"g", ⟨23, 25⟩⟩, ⟨20, 25⟩⟩], ⟨17, 26⟩⟩]
  span := ⟨0, 26⟩

theorem isConstant_of_parse_defaultedField :
    Production.parse .fieldDefinition "a(b: C = [1]): D @e(f: $g)" = .ok defaultedField ∧
      Value.list ⟨[.int ⟨"1", ⟨10, 11⟩⟩], ⟨9, 12⟩⟩ ∈ guarded .fieldDefinition defaultedField ∧
      (Value.list ⟨[.int ⟨"1", ⟨10, 11⟩⟩], ⟨9, 12⟩⟩).IsConstant := by
  have hread : Production.parse .fieldDefinition "a(b: C = [1]): D @e(f: $g)" =
      .ok defaultedField := by cbv
  have hmem : Value.list ⟨[.int ⟨"1", ⟨10, 11⟩⟩], ⟨9, 12⟩⟩ ∈
      guarded .fieldDefinition defaultedField := List.mem_singleton.mpr rfl
  exact ⟨hread, hmem, isConstant_of_parse hread hmem⟩

def exposedField : FieldDefinition where
  description := none
  name := "a"
  arguments := []
  type := .named ⟨"B", ⟨3, 4⟩⟩
  directives := [⟨"c", [⟨"d", .variable ⟨"e", ⟨11, 13⟩⟩, ⟨8, 13⟩⟩], ⟨5, 14⟩⟩]
  span := ⟨0, 14⟩

/-- Not all constant places are guarded: on its own, the definition of a field lets a variable into
its directives. -/
theorem not_isConstant_of_parse :
    ¬ ∀ (p : Production) (source : String) (node : p.Node), p.parse source = .ok node →
      ∀ v ∈ p.constants node, v.IsConstant := by
  intro h
  have hread : Production.parse .fieldDefinition "a: B @c(d: $e)" = .ok exposedField := by cbv
  have hmem : Value.variable ⟨"e", ⟨11, 13⟩⟩ ∈ constants .fieldDefinition exposedField :=
    List.mem_singleton.mpr rfl
  exact h .fieldDefinition _ exposedField hread _ hmem ⟨"e", ⟨11, 13⟩⟩ .here

end Production

end GraphQLText
