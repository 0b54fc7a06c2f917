import NamespaceCatalog.Cbor.Document
import NamespaceCatalog.Json.Document
import NamespaceCatalog.Record.Format

/-!
# Formats to try things with

The codecs of the formats with a library for each that runs.  What is proved of catalogs does not
depend on these libraries.
-/

namespace NamespaceCatalog

/-- A library for each format. -/
def Sample.libraries : Format → DataFormat
  | .json => Json.dataFormat
  | .cbor => Cbor.dataFormat

namespace Format

/-- The codec of a format that runs. -/
def sampleCodec (f : Format) : Codec := f.codec Sample.libraries

/-- A format stands for its codec that runs. -/
instance : Coe Format Codec := ⟨sampleCodec⟩

/-- The stored form of a record. -/
def encode (f : Format) (r : Record) : Bytes := f.sampleCodec.stored r

/-- The record with the given stored form. -/
def decode (f : Format) (bs : Bytes) : Except Error Record := f.sampleCodec.decode bs

/-- The record with the given stored form, if there is one. -/
def decode? (f : Format) (bs : Bytes) : Option Record := (f.decode bs).toOption

end Format

end NamespaceCatalog
