import SimonMQ.Go.Binary

namespace SimonMQ.Go

/-! `hash/crc32` with the IEEE polynomial, one bit at a time. -/

def crcShift (state : UInt32) : UInt32 :=
  if state &&& 1 = 1 then (state >>> 1) ^^^ 0xEDB88320 else state >>> 1

def crcByte (state : UInt32) (byte : UInt8) : UInt32 :=
  crcShift (crcShift (crcShift (crcShift (crcShift (crcShift (crcShift (crcShift
    (state ^^^ byte.toUInt32))))))))

/-- `crc32.ChecksumIEEE`. -/
def checksumIEEE (bytes : Bytes) : UInt32 :=
  bytes.foldl crcByte 0xFFFFFFFF ^^^ 0xFFFFFFFF

example : checksumIEEE (lit "123456789") = 0xCBF43926 := by decide +kernel

end SimonMQ.Go
