import Dalvik.Version

/-!
# Targets

What a file is read or written for: a release of the platform with its runtime, whether optimised
instructions are allowed, and which optional parts of a file count.
-/
namespace Dalvik

structure Options where
  targetApi : Int := 26
  targetArt : Bool := true
  allowOdex : Bool := false
  hiddenApiFlags : Bool := true
  debugInfo : Bool := true
  deriving DecidableEq, Repr

namespace Options

def minTargetApi : Int := 1
def maxTargetApi : Int := 35
def firstArtApi : Int := 19
def lastDalvikApi : Int := 20

/-- Checks that the release exists and has the runtime. -/
def validate (o : Options) : Result Unit :=
  if o.targetApi < minTargetApi ∨ maxTargetApi < o.targetApi then
    Result.unsupported (.api o.targetApi)
  else if o.targetArt ∧ o.targetApi < firstArtApi then
    Result.unsupported (.artBefore o.targetApi)
  else if ¬ o.targetArt ∧ lastDalvikApi < o.targetApi then
    Result.unsupported (.dalvikAfter o.targetApi)
  else .ok ()

def validated (o : Options) : Result Options := do
  o.validate
  return o

def build (targetApi : Int) (targetArt allowOdex : Bool) : Result Options :=
  validated { targetApi, targetArt, allowOdex }

def withTargetApi (o : Options) (targetApi : Int) : Result Options :=
  validated { o with targetApi }

def withArt (o : Options) (targetArt : Bool) : Result Options := validated { o with targetArt }

def requireApi (o : Options) (api : Int) : Result Unit :=
  if o.targetApi < api then Result.unsupported (.apiBelow o.targetApi api) else .ok ()

end Options

/-- What a file is written as. -/
structure WriteOptions where
  options : Options := {}
  version : Version := .dex038
  deriving DecidableEq, Repr

namespace WriteOptions

/-- Checks that the target exists and reads the version. -/
def validate (o : WriteOptions) : Result Unit := do
  o.options.validate
  o.options.requireApi o.version.minApi

def build (options : Options) (version : Version) : Result WriteOptions := do
  (WriteOptions.mk options version).validate
  return ⟨options, version⟩

/-- The newest version for single files that the target reads. -/
def ofTarget (options : Options) : Result WriteOptions := do
  options.validate
  build options (← Version.ofApi options.targetApi)

def withVersion (o : WriteOptions) (version : Version) : Result WriteOptions :=
  build o.options version

end WriteOptions

end Dalvik
