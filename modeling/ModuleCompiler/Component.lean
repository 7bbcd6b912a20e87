import ModuleCompiler.Entity
import ModuleCompiler.Path

/-!
What can be attached to an entity. A role is a combination of components: a class is an entity with
a type and the class tag, a method is an entity with the function tag whose parent is a class.
-/

namespace ModuleCompiler

inductive TypeCategory where
  | classType
  | structType
  | functionLibrary
  deriving DecidableEq

namespace TypeCategory

def name : TypeCategory → String
  | .classType => "Class"
  | .structType => "Struct"
  | .functionLibrary => "FunctionLibrary"

def ofName? : String → Option TypeCategory
  | "Class" => some .classType
  | "Struct" => some .structType
  | "FunctionLibrary" => some .functionLibrary
  | _ => none

instance : Inhabited TypeCategory := ⟨.classType⟩

end TypeCategory

/-- What a module is built into. -/
inductive ModuleTarget where
  | executable
  | sharedLibrary
  | staticLibrary
  deriving DecidableEq

namespace ModuleTarget

def name : ModuleTarget → String
  | .executable => "Executable"
  | .sharedLibrary => "Shared"
  | .staticLibrary => "Static"

def ofName? : String → Option ModuleTarget
  | "Executable" => some .executable
  | "Shared" => some .sharedLibrary
  | "Static" => some .staticLibrary
  | _ => none

def isLibrary : ModuleTarget → Bool
  | .executable => false
  | _ => true

instance : Inhabited ModuleTarget := ⟨.executable⟩

end ModuleTarget

/-- The primitive types of the language. -/
inductive Primitive where
  | bool
  | float
  | double
  | u8
  | i8
  | u16
  | i16
  | u32
  | i32
  | u64
  | i64
  | string
  deriving DecidableEq

namespace Primitive

/-- Every primitive type, in the order in which they are registered. -/
def all : List Primitive :=
  [.bool, .float, .double, .u8, .i8, .u16, .i16, .u32, .i32, .u64, .i64, .string]

def name : Primitive → String
  | .bool => "bool"
  | .float => "float"
  | .double => "double"
  | .u8 => "u8"
  | .i8 => "i8"
  | .u16 => "u16"
  | .i16 => "i16"
  | .u32 => "u32"
  | .i32 => "i32"
  | .u64 => "u64"
  | .i64 => "i64"
  | .string => "String"

def ofName? (name : String) : Option Primitive := all.find? (·.name == name)

/-- How C++ spells the type. -/
def cppSpelling : Primitive → String
  | .bool => "bool"
  | .float => "float"
  | .double => "double"
  | .u8 => "uint8_t"
  | .i8 => "int8_t"
  | .u16 => "uint16_t"
  | .i16 => "int16_t"
  | .u32 => "uint32_t"
  | .i32 => "int32_t"
  | .u64 => "uint64_t"
  | .i64 => "int64_t"
  | .string => "std::string"

end Primitive

structure TypeInfo where
  name : String
  category : TypeCategory
  deriving DecidableEq

/-- The kinds of component. An entity holds at most one component of a kind. -/
inductive Kind where
  | typeInfo
  | classTag
  | structTag
  | libraryTag
  | identifier
  | module
  | fileRef
  | functionTag
  | variableTag
  | parameter
  | primitive
  | cppName
  | cppFragment
  | children
  | parent
  deriving DecidableEq

namespace Kind

/-- Every kind, in the order in which the components of an entity are listed. -/
def all : List Kind :=
  [.typeInfo, .classTag, .structTag, .libraryTag, .identifier, .module, .fileRef, .functionTag,
    .variableTag, .parameter, .primitive, .cppName, .cppFragment, .children, .parent]

/-- What a component of a kind says. A tag says nothing beyond being there. -/
@[reducible] def Value : Kind → Type
  | .typeInfo => TypeInfo
  | .classTag => Unit
  | .structTag => Unit
  | .libraryTag => Unit
  | .identifier => String
  | .module => ModuleTarget
  | .fileRef => Path
  | .functionTag => Unit
  | .variableTag => Unit
  | .parameter => String
  | .primitive => Primitive
  | .cppName => String
  | .cppFragment => String
  | .children => List Entity
  | .parent => Entity

/-- The name that messages use for the components of a kind. -/
def typeName : Kind → String
  | .typeInfo => "rift_ast::components::CType"
  | .classTag => "rift_ast::components::CClassDecl"
  | .structTag => "rift_ast::components::CStructDecl"
  | .libraryTag => "rift_ast::components::CFunctionLibraryDecl"
  | .identifier => "rift_ast::components::CIdentifier"
  | .module => "rift_ast::components::CModule"
  | .fileRef => "rift_ast::components::CFileRef"
  | .functionTag => "rift_ast::components::CFunctionDecl"
  | .variableTag => "rift_ast::components::CVariableDecl"
  | .parameter => "rift_ast::components::CParameterDecl"
  | .primitive => "rift_ast::native::CNativeType"
  | .cppName => "rift_codegen::native::CCppNativeName"
  | .cppFragment => "rift_codegen::fragment::CCppCodeGenFragment"
  | .children => "rift_ast::hierarchy::CParent"
  | .parent => "rift_ast::hierarchy::CChild"

/-- The two kinds that only the operations on the hierarchy change. -/
def isLink : Kind → Bool
  | .children => true
  | .parent => true
  | _ => false

/-- The component an entity is given when none is named, for the kinds that have one. -/
def default? : (k : Kind) → Option k.Value
  | .classTag => some ()
  | .structTag => some ()
  | .libraryTag => some ()
  | .module => some ModuleTarget.executable
  | .functionTag => some ()
  | .variableTag => some ()
  | .parameter => some ""
  | .cppFragment => some ""
  | .children => some []
  | .typeInfo => none
  | .identifier => none
  | .fileRef => none
  | .primitive => none
  | .cppName => none
  | .parent => none

instance (k : Kind) : DecidableEq k.Value := by
  cases k <;> (simp only [Value]; infer_instance)

end Kind

/-- A component together with its kind. -/
abbrev Component := (k : Kind) × k.Value

end ModuleCompiler
