/-!
# Reserved words of GLSL

The words that a name of the shader must not take in GLSL 4.60 and GLSL ES 3.20: keywords, words
reserved for later versions and names of builtin functions. Builtin variables begin with `gl_` and are
not listed.
-/

namespace Shading.Glsl.Reserved

def scalarTypes : List String := [
  "void", "bool", "int", "uint", "float", "double"
]

def vectorTypes : List String := [
  "vec2", "vec3", "vec4", "ivec2", "ivec3", "ivec4", "uvec2", "uvec3", "uvec4", "bvec2", "bvec3",
  "bvec4", "dvec2", "dvec3", "dvec4"
]

def matrixTypes : List String := [
  "mat2", "mat3", "mat4", "mat2x2", "mat2x3", "mat2x4", "mat3x2", "mat3x3", "mat3x4", "mat4x2",
  "mat4x3", "mat4x4", "dmat2", "dmat3", "dmat4", "dmat2x2", "dmat2x3", "dmat2x4", "dmat3x2",
  "dmat3x3", "dmat3x4", "dmat4x2", "dmat4x3", "dmat4x4"
]

def samplerTypes : List String := [
  "sampler", "sampler1D", "sampler2D", "sampler3D", "samplerCube", "sampler2DRect",
  "sampler1DShadow", "sampler2DShadow", "samplerCubeShadow", "sampler2DRectShadow",
  "sampler1DArray", "sampler2DArray", "sampler1DArrayShadow", "sampler2DArrayShadow",
  "samplerCubeArray", "samplerCubeArrayShadow", "samplerBuffer", "sampler2DMS", "sampler2DMSArray"
]

def integerSamplerTypes : List String := [
  "isampler1D", "isampler2D", "isampler3D", "isamplerCube", "isampler2DRect", "isampler1DArray",
  "isampler2DArray", "isamplerCubeArray", "isamplerBuffer", "isampler2DMS", "isampler2DMSArray"
]

def unsignedSamplerTypes : List String := [
  "usampler1D", "usampler2D", "usampler3D", "usamplerCube", "usampler2DRect", "usampler1DArray",
  "usampler2DArray", "usamplerCubeArray", "usamplerBuffer", "usampler2DMS", "usampler2DMSArray"
]

def imageTypes : List String := [
  "image1D", "image2D", "image3D", "imageCube", "image2DRect", "image1DArray", "image2DArray",
  "imageCubeArray", "imageBuffer", "image2DMS", "image2DMSArray", "iimage1D", "iimage2D",
  "iimage3D", "iimageCube", "iimage2DRect", "iimage1DArray", "iimage2DArray", "iimageCubeArray",
  "iimageBuffer", "iimage2DMS", "iimage2DMSArray", "uimage1D", "uimage2D", "uimage3D",
  "uimageCube", "uimage2DRect", "uimage1DArray", "uimage2DArray", "uimageCubeArray",
  "uimageBuffer", "uimage2DMS", "uimage2DMSArray"
]

def counterTypes : List String := [
  "atomic_uint"
]

def keywords : List String := [
  "attribute", "const", "uniform", "varying", "buffer", "shared", "coherent", "volatile",
  "restrict", "readonly", "writeonly", "layout", "centroid", "flat", "smooth", "noperspective",
  "patch", "sample", "break", "continue", "do", "for", "while", "switch", "case", "default", "if",
  "else", "subroutine", "in", "out", "inout", "true", "false", "invariant", "precise", "discard",
  "return", "struct"
]

def precisionWords : List String := [
  "lowp", "mediump", "highp", "precision"
]

def futureWords : List String := [
  "common", "partition", "active", "asm", "class", "union", "enum", "typedef", "template", "this",
  "resource", "goto", "inline", "noinline", "public", "static", "extern", "external", "interface",
  "long", "short", "half", "fixed", "unsigned", "superp", "input", "output", "hvec2", "hvec3",
  "hvec4", "fvec2", "fvec3", "fvec4", "sampler3DRect", "filter", "sizeof", "cast", "namespace",
  "using"
]

def functions : List String := [
  "main", "radians", "degrees", "sin", "cos", "tan", "asin", "acos", "atan", "sinh", "cosh",
  "tanh", "asinh", "acosh", "atanh", "pow", "exp", "log", "exp2", "log2", "sqrt", "inversesqrt",
  "abs", "sign", "floor", "trunc", "round", "roundEven", "ceil", "fract", "mod", "modf", "min",
  "max", "clamp", "mix", "step", "smoothstep", "isnan", "isinf", "floatBitsToInt",
  "floatBitsToUint", "intBitsToFloat", "uintBitsToFloat", "fma", "frexp", "ldexp", "packUnorm2x16",
  "packSnorm2x16", "packUnorm4x8", "packSnorm4x8", "unpackUnorm2x16", "unpackSnorm2x16",
  "unpackUnorm4x8", "unpackSnorm4x8", "packHalf2x16", "unpackHalf2x16", "packDouble2x32",
  "unpackDouble2x32", "length", "distance", "dot", "cross", "normalize", "faceforward", "reflect",
  "refract", "matrixCompMult", "outerProduct", "transpose", "determinant", "inverse", "lessThan",
  "lessThanEqual", "greaterThan", "greaterThanEqual", "equal", "notEqual", "any", "all", "not",
  "uaddCarry", "usubBorrow", "umulExtended", "imulExtended", "bitfieldExtract", "bitfieldInsert",
  "bitfieldReverse", "bitCount", "findLSB", "findMSB", "textureSize", "textureQueryLod",
  "textureQueryLevels", "textureSamples", "texture", "textureProj", "textureLod", "textureOffset",
  "texelFetch", "texelFetchOffset", "textureProjLod", "textureProjOffset", "textureLodOffset",
  "textureProjLodOffset", "textureGrad", "textureGradOffset", "textureProjGrad",
  "textureProjGradOffset", "textureGather", "textureGatherOffset", "textureGatherOffsets", "dFdx",
  "dFdy", "dFdxFine", "dFdyFine", "dFdxCoarse", "dFdyCoarse", "fwidth", "fwidthFine",
  "fwidthCoarse", "interpolateAtCentroid", "interpolateAtSample", "interpolateAtOffset", "noise1",
  "noise2", "noise3", "noise4", "EmitStreamVertex", "EndStreamPrimitive", "EmitVertex",
  "EndPrimitive", "barrier", "memoryBarrier", "memoryBarrierAtomicCounter", "memoryBarrierBuffer",
  "memoryBarrierShared", "memoryBarrierImage", "groupMemoryBarrier", "imageLoad", "imageStore",
  "imageAtomicAdd", "imageAtomicMin", "imageAtomicMax", "imageAtomicAnd", "imageAtomicOr",
  "imageAtomicXor", "imageAtomicExchange", "imageAtomicCompSwap", "imageSize", "imageSamples",
  "atomicCounterIncrement", "atomicCounterDecrement", "atomicCounter", "atomicCounterAdd",
  "atomicCounterSubtract", "atomicCounterMin", "atomicCounterMax", "atomicCounterAnd",
  "atomicCounterOr", "atomicCounterXor", "atomicCounterExchange", "atomicCounterCompSwap",
  "atomicAdd", "atomicMin", "atomicMax", "atomicAnd", "atomicOr", "atomicXor", "atomicExchange",
  "atomicCompSwap", "subpassLoad"
]

def words : List String :=
  scalarTypes ++ vectorTypes ++ matrixTypes ++ samplerTypes ++ integerSamplerTypes ++
    unsignedSamplerTypes ++ imageTypes ++ counterTypes ++ keywords ++ precisionWords ++ futureWords ++
    functions

def contains (w : String) : Bool := words.contains w

end Shading.Glsl.Reserved
