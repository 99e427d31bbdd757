/-
  ShaderGraph.WorldBinding — the uniforms that the engine sets for every frame.

  A technique requests them by name; a node then reads them as world parameters. A
  binding determines the type and the name of its uniform.
-/

import ShaderGraph.Fault

namespace ShaderGraph

inductive WorldBinding where
  /-- Model to world. -/
  | worldMatrix
  /-- World to camera. -/
  | viewMatrix
  /-- Camera to clip space. -/
  | projectionMatrix
  /-- Model to camera. -/
  | worldViewMatrix
  /-- Model to clip space. -/
  | worldViewProjectionMatrix
  /-- World to clip space. -/
  | viewProjectionMatrix
  | worldMatrixInverse
  | viewMatrixInverse
  | projectionMatrixInverse
  | viewProjectionMatrixInverse
  | worldViewMatrixInverse
  | worldViewProjectionMatrixInverse
  /-- The inverse transpose of the upper 3x3 part of the model to camera matrix. -/
  | normalMatrix
  /-- The inverse transpose of the upper 3x3 part of the model to world matrix. -/
  | worldNormalMatrix
  | worldMatrixInverseTranspose
  | normalMatrixInverse
  /-- The rectangle `(x, y, width, height)` drawn to. -/
  | viewPort
  | lightDirection
  | lightPosition
  | ambientLightColor
  | lightColor
  /-- In world space. -/
  | cameraPosition
  | cameraDirection
  | cameraLeft
  | cameraUp
  /-- The near and far planes. -/
  | frustumNearFar
  /-- In pixels. -/
  | resolution
  /-- One divided by the resolution. -/
  | resolutionInverse
  /-- Of the viewport. -/
  | aspect
  /-- Seconds since the start. -/
  | time
  /-- Time per frame. -/
  | tpf
  /-- Frames per second. -/
  | frameRate
  deriving DecidableEq, Repr

namespace WorldBinding

def all : List WorldBinding :=
  [worldMatrix, viewMatrix, projectionMatrix, worldViewMatrix, worldViewProjectionMatrix,
   viewProjectionMatrix, worldMatrixInverse, viewMatrixInverse, projectionMatrixInverse,
   viewProjectionMatrixInverse, worldViewMatrixInverse, worldViewProjectionMatrixInverse,
   normalMatrix, worldNormalMatrix, worldMatrixInverseTranspose, normalMatrixInverse, viewPort,
   lightDirection, lightPosition, ambientLightColor, lightColor, cameraPosition, cameraDirection,
   cameraLeft, cameraUp, frustumNearFar, resolution, resolutionInverse, aspect, time, tpf,
   frameRate]

def name : WorldBinding → String
  | worldMatrix => "WorldMatrix"
  | viewMatrix => "ViewMatrix"
  | projectionMatrix => "ProjectionMatrix"
  | worldViewMatrix => "WorldViewMatrix"
  | worldViewProjectionMatrix => "WorldViewProjectionMatrix"
  | viewProjectionMatrix => "ViewProjectionMatrix"
  | worldMatrixInverse => "WorldMatrixInverse"
  | viewMatrixInverse => "ViewMatrixInverse"
  | projectionMatrixInverse => "ProjectionMatrixInverse"
  | viewProjectionMatrixInverse => "ViewProjectionMatrixInverse"
  | worldViewMatrixInverse => "WorldViewMatrixInverse"
  | worldViewProjectionMatrixInverse => "WorldViewProjectionMatrixInverse"
  | normalMatrix => "NormalMatrix"
  | worldNormalMatrix => "WorldNormalMatrix"
  | worldMatrixInverseTranspose => "WorldMatrixInverseTranspose"
  | normalMatrixInverse => "NormalMatrixInverse"
  | viewPort => "ViewPort"
  | lightDirection => "LightDirection"
  | lightPosition => "LightPosition"
  | ambientLightColor => "AmbientLightColor"
  | lightColor => "LightColor"
  | cameraPosition => "CameraPosition"
  | cameraDirection => "CameraDirection"
  | cameraLeft => "CameraLeft"
  | cameraUp => "CameraUp"
  | frustumNearFar => "FrustumNearFar"
  | resolution => "Resolution"
  | resolutionInverse => "ResolutionInverse"
  | aspect => "Aspect"
  | time => "Time"
  | tpf => "Tpf"
  | frameRate => "FrameRate"

def glslType : WorldBinding → String
  | worldMatrix | viewMatrix | projectionMatrix | worldViewMatrix
  | worldViewProjectionMatrix | viewProjectionMatrix | worldMatrixInverse
  | viewMatrixInverse | projectionMatrixInverse | viewProjectionMatrixInverse
  | worldViewMatrixInverse | worldViewProjectionMatrixInverse => "mat4"
  | normalMatrix | worldNormalMatrix | worldMatrixInverseTranspose
  | normalMatrixInverse => "mat3"
  | viewPort | lightDirection | lightPosition | ambientLightColor | lightColor => "vec4"
  | cameraPosition | cameraDirection | cameraLeft | cameraUp => "vec3"
  | frustumNearFar | resolution | resolutionInverse => "vec2"
  | aspect | time | tpf | frameRate => "float"

def uniformName (binding : WorldBinding) : String := "g_" ++ binding.name

def parse (text : String) : Except Cause WorldBinding :=
  match all.find? (·.name == text) with
  | some binding => .ok binding
  | none => .error (.unknownBinding text)

/-- Every binding is read back from its name, so no two share one. -/
theorem parse_name (b : WorldBinding) : parse b.name = .ok b := by
  cases b <;> rfl

end WorldBinding

end ShaderGraph
