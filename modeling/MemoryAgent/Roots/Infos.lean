import MemoryAgent.Jvmti.Heap

/-
  The back references that the agent records for an object:
  the tag of the referrer, the kind of the reference and the
  details shown to the user.

  Key definitions include:
    * `ReferenceInfo`
    * `createReferenceInfo`
    * `isValidGcRoot`
-/

namespace MemoryAgent

------------------------------------------------------------
-- Back References
------------------------------------------------------------

/- What `getReferenceInfo` shows besides tag and kind. -/
inductive ReferenceDetail where
  | none
  | index (index : Int)
  | stack (threadId : jlong) (slot depth : Int)
      (methodId : Option Nat)
deriving DecidableEq, Repr

/-
  `ReferenceInfo` with its subclasses `InfoWithIndex` and
  `StackInfo`.
-/
structure ReferenceInfo where
  tag : jlong
  kind : HeapReferenceKind
  detail : ReferenceDetail
deriving DecidableEq, Repr

/- The tag recorded for a root, which has no referrer. -/
def rootTag : jlong := -1

namespace HeapReferenceInfo

/- The member `index` of the union. -/
def indexField : HeapReferenceInfo → Int
| .index i => i
| _ => 0

/- The member `stack_local` of the union. -/
def stackLocalField :
    HeapReferenceInfo → ReferenceDetail
| .stackLocal threadId slot depth method =>
    .stack threadId slot depth (some method)
| _ => .stack 0 0 0 Option.none

/- The member `jni_local`, with the slot the agent shows. -/
def jniLocalField : HeapReferenceInfo → ReferenceDetail
| .jniLocal threadId depth method =>
    .stack threadId (-1) depth (some method)
| _ => .stack 0 (-1) 0 Option.none

end HeapReferenceInfo

def createReferenceInfo
    (tag : jlong)
    (kind : HeapReferenceKind)
    (info : HeapReferenceInfo) : ReferenceInfo :=
  match kind with
  | .staticField => ⟨tag, kind, .index info.indexField⟩
  | .field => ⟨tag, kind, .index info.indexField⟩
  | .arrayElement => ⟨tag, kind, .index info.indexField⟩
  | .constantPool => ⟨tag, kind, .index info.indexField⟩
  | .stackLocal => ⟨tag, kind, info.stackLocalField⟩
  | .jniLocal => ⟨tag, kind, info.jniLocalField⟩
  | _ => ⟨tag, kind, .none⟩

@[simp] theorem createReferenceInfo_tag
    (tag : jlong)
    (kind : HeapReferenceKind)
    (info : HeapReferenceInfo) :
    (createReferenceInfo tag kind info).tag = tag := by
  cases kind <;> rfl

@[simp] theorem createReferenceInfo_kind
    (tag : jlong)
    (kind : HeapReferenceKind)
    (info : HeapReferenceInfo) :
    (createReferenceInfo tag kind info).kind = kind := by
  cases kind <;> rfl

/- A root reference of a kind the search counts. -/
def isValidGcRoot
    (tag : jlong)
    (kind : HeapReferenceKind) : Bool :=
  tag == rootTag && kind != .jniGlobal && kind != .jniLocal

end MemoryAgent
