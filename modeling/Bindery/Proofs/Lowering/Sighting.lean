import Bindery.Lowerer

/-!
# What lowering comes to see

A name belongs to the first declaration that is seen under it, so what is registered is explained by
the declarations in the order in which lowering comes to see them. The `sightings` of a type list
them: the records, enums, callbacks, arrays, macros and functions that are reached, under the names
by which they are registered, be those names free or not. They follow the recursion of `resolve`
without an override; what is met between two of them, that is, the delegates that cut a resolution
short and the structs that are complete already, is read off the registry of the run itself.

The first sighting of a name (`firstNamed`) and the first complete record of it (`firstBody`) are
what the definition under the name is made from.
-/

namespace Bindery

/-- A declaration that lowering comes to see, with the name by which it is registered. -/
inductive Sighting where
  | macroDef (decl : MacroDecl)
  | enum (name : String) (decl : EnumDecl)
  /-- A record, complete or not. -/
  | record (name : String) (decl : RecordDecl)
  /-- A function type; `embedded` inside a struct. -/
  | callback (name : String) (ty : FunctionType) (embedded : Bool)
  | array (element : TypeRef) (length : Nat)
  | function (decl : FunctionDecl) (e : Export)

namespace Sighting

def name : Sighting → String
  | macroDef decl => decl.name
  | enum name _ | record name _ | callback name _ _ => name
  | array element length => fixedArrayName element length
  | function decl _ => decl.name

/-- The kind of the definition that is registered for it. -/
def kind : Sighting → Kind
  | macroDef _ => .macroDef
  | enum _ _ => .enumDef
  | record _ _ => .structDef
  | callback _ _ _ => .delegateDef
  | array _ _ => .fixedArray
  | function _ _ => .functionDef

/-- Whether it tells the fields of a record. -/
def isComplete : Sighting → Bool
  | record _ decl => decl.isComplete
  | _ => false

/-- The record, if it is called `n` and complete. -/
def body? (n : String) : Sighting → Option RecordDecl
  | record name decl => if name = n ∧ decl.isComplete = true then some decl else none
  | _ => none

end Sighting

/-- The first sighting under a name. -/
def firstNamed (n : String) (log : List Sighting) : Option Sighting := log.find? (·.name == n)

/-- The first complete record under a name. -/
def firstBody (n : String) (log : List Sighting) : Option RecordDecl :=
  log.findSome? (Sighting.body? n)

/-- What comes after a step, from its answer and the state that it leaves; nothing after an
error. -/
def following {ε σ α β : Type} (m : EStateM ε σ α) (s : σ) (f : α → σ → List β) : List β :=
  match m s with
  | .ok a t => f a t
  | .error _ _ => []

theorem following_ok {ε σ α β : Type} {m : EStateM ε σ α} {s t : σ} {a : α} (h : m s = .ok a t)
    (f : α → σ → List β) : following m s f = f a t := by
  rw [following, h]

theorem following_nil {ε σ α β : Type} (m : EStateM ε σ α) (s : σ) :
    following m s (fun _ _ => ([] : List β)) = [] := by
  unfold following
  split <;> rfl

/-- An enum is seen where it has a name. -/
def enumSightings (fallback : Option String) (decl : EnumDecl) : List Sighting :=
  (declaredName? decl.name fallback).toList.map (.enum · decl)

mutual

/-- What resolution of a type comes to see. -/
def sightings (hint : Option String) (inStruct : Bool) (ty : CType) (s : Registry) :
    List Sighting :=
  if (hint.bind s.delegate?).isSome then []
  else match ty with
    | .typedef name target =>
      if name = "size_t" then [] else sightings (some name) inStruct target s
    | .array element (.constant length) _ =>
      sightings hint true element s ++
        following (resolve .none hint true element) s fun ref _ => [.array ref length]
    | .array element _ _ => sightings hint inStruct element s
    | .record decl => recordSightings hint decl s
    | .enum decl => enumSightings hint decl
    | .pointer pointee _ => sightings hint inStruct pointee s
    | .function ty =>
      match hint with
      | some name => callbackSightings name inStruct ty s
      | none => []
    | .builtin _ | .unsupported _ => []

/-- A record, and what its fields show if it fills its struct. -/
def recordSightings (fallback : Option String) : RecordDecl → Registry → List Sighting
  | ⟨tag, fields, isUnion, doc⟩, s =>
    match declaredName? tag fallback with
    | none => []
    | some name =>
      .record name ⟨tag, fields, isUnion, doc⟩ ::
        let (slot, s) := (s.mention name).structSlot name
        match slot, fields with
        | some id, some decls =>
          let (begun, s) := s.beginStruct id isUnion doc
          if begun then fieldSightings name .empty decls s else []
        | _, _ => []

def fieldSightings (record : String) (run : BitFieldRun) : List FieldDecl → Registry → List Sighting
  | [], _ => []
  | ⟨name, _, some width, doc, _⟩ :: decls, s =>
    fieldSightings record (run.push name width doc) decls s
  | ⟨name, ty, none, _, _⟩ :: decls, s =>
    following (run.flush record) s fun _ s =>
      let hint := some (record ++ "_" ++ Identifier.camel name)
      sightings hint true ty s ++
        following (resolve .none hint true ty) s fun _ s => fieldSightings record .empty decls s

/-- A callback comes after what its signature shows, which is looked at only where the name is
free. -/
def callbackSightings (name : String) (embedded : Bool) : FunctionType → Registry → List Sighting
  | ⟨returnType, params, callConv⟩, s =>
    let s := s.mention name
    (if (s.lookup? name).isNone then
      sightings none false returnType s ++
        following (resolveInSignature .none none returnType) s fun _ s =>
          paramSightings name 0 params s
    else []) ++ [.callback name ⟨returnType, params, callConv⟩ embedded]

def paramSightings (owner : String) (i : Nat) : List ParamDecl → Registry → List Sighting
  | [], _ => []
  | ⟨name, ty, _⟩ :: decls, s =>
    let hint := some (paramName owner i name).2
    sightings hint false ty s ++
      following (resolveInSignature .none hint ty) s fun _ s =>
        paramSightings owner (i + 1) decls s

end

/-- What the signature of `owner` shows: first its return type, then its parameters. -/
def signatureSightings (owner : String) (returnType : CType) (params : List ParamDecl)
    (s : Registry) : List Sighting :=
  sightings none false returnType s ++
    following (resolveInSignature .none none returnType) s fun _ s =>
      paramSightings owner 0 params s

/-- An exported function comes after what its signature shows, like a callback. -/
def functionSightings (decl : FunctionDecl) (e : Export) (s : Registry) : List Sighting :=
  signatureSightings decl.name decl.returnType decl.params s ++ [.function decl e]

theorem callbackSightings_eq (name : String) (embedded : Bool) (ty : FunctionType) (s : Registry) :
    callbackSightings name embedded ty s =
      (if ((s.mention name).lookup? name).isNone then
        signatureSightings name ty.returnType ty.params (s.mention name) else []) ++
      [.callback name ty embedded] := by
  obtain ⟨returnType, params, callConv⟩ := ty
  rw [callbackSightings]
  rfl

variable {n : String} {e : Sighting}

theorem firstNamed_append (n : String) (l₁ l₂ : List Sighting) :
    firstNamed n (l₁ ++ l₂) = (firstNamed n l₁).or (firstNamed n l₂) :=
  List.find?_append

theorem firstBody_append (n : String) (l₁ l₂ : List Sighting) :
    firstBody n (l₁ ++ l₂) = (firstBody n l₁).or (firstBody n l₂) :=
  List.findSome?_append

theorem firstNamed_eq_some {log : List Sighting} (h : firstNamed n log = some e) :
    e ∈ log ∧ e.name = n := by
  unfold firstNamed at h
  exact ⟨List.mem_of_find?_eq_some h, by simpa using List.find?_some h⟩

theorem Sighting.body?_eq_some {decl : RecordDecl} :
    e.body? n = some decl ↔ e = .record n decl ∧ decl.isComplete = true := by
  cases e with
  | record name decl' =>
    simp only [Sighting.body?]
    constructor
    · intro h
      split at h
      · next hc => cases h; exact ⟨by rw [hc.1], hc.2⟩
      · cases h
    · rintro ⟨he, hc⟩
      cases he
      exact if_pos ⟨rfl, hc⟩
  | _ => exact ⟨nofun, fun h => nomatch h.1⟩

theorem firstBody_eq_some {decl : RecordDecl} {log : List Sighting}
    (h : firstBody n log = some decl) :
    Sighting.record n decl ∈ log ∧ decl.isComplete = true := by
  obtain ⟨e, he, hb⟩ := List.exists_of_findSome?_eq_some h
  obtain ⟨rfl, hc⟩ := Sighting.body?_eq_some.mp hb
  exact ⟨he, hc⟩

end Bindery
