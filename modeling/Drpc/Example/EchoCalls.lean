import Drpc.Example.Echo
import Drpc.EndToEnd.System

/-! # Calls of the echo service

What a call of the echo service needs for the generated code to give all that calls rely on
(`Serves`): its texts are readable, and its request can be announced (`EchoCall`). Requests may
carry fields the service does not know; its responses carry none.
-/

namespace Drpc.Example

open Proto Server Client EndToEnd

variable {Unknown : Type} {runtime : Runtime Unknown}

/-- The names in the descriptors of `echo.proto`. -/
structure NamesReadable (runtime : Runtime Unknown) : Prop where
  service : runtime.ReadableText serviceName
  method : ∀ method : EchoMethod, runtime.ReadableText method.name

/-- A call of the echo service whose texts are readable and whose request protobuf writes. -/
structure EchoCall (runtime : Runtime Unknown) (call : Call EchoMethod (Parsed Unknown Bytes)) :
    Prop where
  request : (echoCode runtime).WellFormed (EchoReadable runtime) call.request
  response : EchoReadable runtime (call.method.tag ++ call.request.fields)
  fits : (echoCode runtime).byteSizeLong call.request ≤ maxMessage

theorem requestHeader_readable (names : NamesReadable runtime)
    (call : Call EchoMethod (Parsed Unknown Bytes)) (requestId : Int64) :
    (requestHeader (generatedProtobuf runtime) call requestId).Readable runtime where
  service := by
    rintro _ ⟨⟩
    exact names.service
  method := by
    rintro _ ⟨⟩
    exact names.method call.method

theorem responseHeader_readable (requestId : Int64) :
    (responseHeader requestId).Readable runtime :=
  Header.readable_of_unnamed rfl rfl

/-- A readable header is not much longer than its names. -/
theorem length_serializeHeader_le (sound : runtime.Lawful) {header : Header}
    (readable : header.Readable runtime) :
    ((generatedProtobuf runtime).serializeHeader header).length ≤
      56 + header.service.length + header.method.length := by
  change (header.serialize runtime ++ []).length ≤ _
  rw [List.append_nil, Header.length_serialize sound readable]
  exact header.byteSize_le sound

theorem length_requestHeader_le (sound : runtime.Lawful) (names : NamesReadable runtime)
    (call : Call EchoMethod (Parsed Unknown Bytes)) (requestId : Int64) :
    ((generatedProtobuf runtime).serializeHeader
      (requestHeader (generatedProtobuf runtime) call requestId)).length ≤ 72 := by
  have name : (EchoMethod.name call.method).length ≤ 5 := by
    cases call.method <;> decide
  have bound := length_serializeHeader_le sound (requestHeader_readable names call requestId)
  change _ ≤ 56 + 11 + (EchoMethod.name call.method).length at bound
  omega

theorem length_responseHeader_le (sound : runtime.Lawful) (requestId : Int64) :
    ((generatedProtobuf runtime).serializeHeader (responseHeader requestId)).length ≤ 56 :=
  length_serializeHeader_le sound (responseHeader_readable requestId)

namespace EchoCall

variable {call : Call EchoMethod (Parsed Unknown Bytes)} (echoCall : EchoCall runtime call)
  (sound : runtime.Lawful)

include echoCall

/-- The response that `EchoServiceImpl` builds can be read back. -/
theorem answer_wellFormed :
    (echoCode runtime).WellFormed (EchoReadable runtime)
      (echoService.callMethod call.method call.request) :=
  .of_known echoCall.response

include sound

/-- The request is as long as its size announces. -/
theorem length_request :
    ((generatedProtobuf runtime).serialize call.request).length =
      (echoCode runtime).byteSizeLong call.request :=
  ((echoCode_lawful sound).byteSizeLong_eq echoCall.request).symm

/-- The response is shorter than a message can be. -/
theorem length_response_lt :
    ((generatedProtobuf runtime).serialize
      (echoService.callMethod call.method call.request)).length < maxMessage := by
  have small : (call.method.tag ++ call.request.fields).length ≤ maxText := by
    by_cases empty : call.method.tag ++ call.request.fields = []
    · simp [empty]
    · exact (echoCall.response empty).1
  have size := echoByteSize_le sound (call.method.tag ++ call.request.fields)
  have same := (echoCode_lawful sound).byteSizeLong_eq echoCall.answer_wellFormed
  change echoByteSize runtime (call.method.tag ++ call.request.fields) + 0 = _ at same
  refine same.symm.trans_lt ?_
  unfold maxText at small
  unfold maxMessage
  omega

/-- **The generated code serves the calls of the echo service.** -/
theorem serves (names : NamesReadable runtime) :
    Serves (generatedServer runtime) call echoService := by
  have lawful := echoCode_lawful sound
  have limit : maxMessage < 2 ^ 32 := by norm_num [maxMessage]
  constructor
  · rfl
  · change (echoService : Service EchoMethod (Parsed Unknown Bytes)).findMethodByName
      call.method.name = some call.method
    cases call.method <;> rfl
  · exact fun requestId =>
      parseHeader_serializeHeader sound (requestHeader_readable names call requestId)
  · exact fun requestId =>
      (length_requestHeader_le sound names call requestId).trans_lt (by decide)
  · exact lawful.parseFromZeroCopyStream_internalSerialize echoCall.request
  · exact (echoCall.length_request sound).trans_lt (echoCall.fits.trans_lt limit)
  · exact fun requestId => parseHeader_serializeHeader sound (responseHeader_readable requestId)
  · exact fun requestId => (length_responseHeader_le sound requestId).trans_lt (by decide)
  · exact lawful.parseFromZeroCopyStream_internalSerialize echoCall.answer_wellFormed
  · exact (echoCall.length_response_lt sound).trans limit

end EchoCall

theorem flatRuntime_names : NamesReadable flatRuntime where
  service := by decide +kernel
  method method := by cases method <;> decide +kernel

end Drpc.Example
