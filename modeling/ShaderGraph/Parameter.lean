/-
  ShaderGraph.Parameter — the parameters of a material and their types.

  A parameter is a value, an array of values, a colour or a texture. Its uniform is typed
  by the shading language (`ParamType.glslType`): an array by its element, the length
  standing with the variable; a texture by its sampler kind, or by a union where the node
  that reads it decides. Only arrays take a length. Of two parameters with one name the
  first counts (`Catalog.find?`).
-/

import ShaderGraph.Fault

namespace ShaderGraph

/-- The values that come alone and in arrays. -/
inductive Element where
  | float
  | vector2
  | vector3
  | vector4
  | int
  | boolean
  | matrix3
  | matrix4
  deriving DecidableEq, Repr

namespace Element

def all : List Element := [float, vector2, vector3, vector4, int, boolean, matrix3, matrix4]

def name : Element → String
  | float => "Float"
  | vector2 => "Vector2"
  | vector3 => "Vector3"
  | vector4 => "Vector4"
  | int => "Int"
  | boolean => "Boolean"
  | matrix3 => "Matrix3"
  | matrix4 => "Matrix4"

def glslType : Element → String
  | float => "float"
  | vector2 => "vec2"
  | vector3 => "vec3"
  | vector4 => "vec4"
  | int => "int"
  | boolean => "bool"
  | matrix3 => "mat3"
  | matrix4 => "mat4"

end Element

inductive ParamType where
  | single (element : Element)
  | array (element : Element)
  | color
  | texture2D
  | texture3D
  | textureArray
  | textureCubeMap
  deriving DecidableEq, Repr

namespace ParamType

def all : List ParamType :=
  Element.all.map single ++ Element.all.map array ++
    [color, texture2D, texture3D, textureArray, textureCubeMap]

def name : ParamType → String
  | single element => element.name
  | array element => element.name ++ "Array"
  | color => "Color"
  | texture2D => "Texture2D"
  | texture3D => "Texture3D"
  | textureArray => "TextureArray"
  | textureCubeMap => "TextureCubeMap"

/-- The type of the uniform; a texture whose kind is open has a union. -/
def glslType : ParamType → String
  | single element => element.glslType
  | array element => element.glslType
  | color => "vec4"
  | texture2D => "sampler2D|sampler2DShadow"
  | texture3D => "sampler3D"
  | textureArray => "sampler2DArray|sampler2DArrayShadow"
  | textureCubeMap => "samplerCube"

def isArray : ParamType → Bool
  | array _ => true
  | _ => false

def parse (text : String) : Except Cause ParamType :=
  match all.find? (·.name == text) with
  | some type => .ok type
  | none => .error (.unknownParamType text)

/-- Every type is read back from its name, so no two share one. -/
theorem parse_name (t : ParamType) : parse t.name = .ok t := by
  cases t with
  | single e => cases e <;> rfl
  | array e => cases e <;> rfl
  | _ => rfl

end ParamType

structure Parameter where
  name : String
  type : ParamType
  /-- The default value as written. -/
  defaultValue : Option String
  deriving DecidableEq, Repr

def Parameter.uniformName (p : Parameter) : String := "m_" ++ p.name

/-- The parameters of a material, in the order they are declared. -/
abbrev Catalog := List Parameter

def Catalog.param? (catalog : Catalog) (name : String) : Option Parameter :=
  catalog.find? (·.name == name)

end ShaderGraph
