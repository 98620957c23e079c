import PgBson.Compare.Hash
import PgBson.Compare.Transitive
import PgBson.Io.Recv
import PgBson.Access.Congruence
import PgBson.Json.Accepts
import PgBson.Record.Numbers
import PgBson.Access.Get
import PgBson.Record.ReadBack
import PgBson.Access.Wrapper
import PgBson.Record.Immutable
import PgBson.Access.Integers
import PgBson.Record.Timestamp
import PgBson.Record.Nested
import PgBson.Access.NumberText
import PgBson.Access.Walk
import PgBson.Access.ArrayVector
import PgBson.Access.Unwind
import PgBson.Access.Rows
import PgBson.Json.Total
import PgBson.Json.Grammar
import PgBson.Json.Reading
import PgBson.Lib.Unicode
import PgBson.Json.Whole
import PgBson.Access.LegalText
import PgBson.Lib.Machine
import PgBson.Bson.Validate
import PgBson.Bson.Validation
import PgBson.Bson.Builder
import PgBson.Lib.Rerounding
import PgBson.Json.Stable
import PgBson.Json.Recognize
import PgBson.Json.Completeness
import PgBson.Json.Ambiguity
import PgBson.Io.Table
import PgBson.Compare.KeyPattern
import PgBson.Compare.SortOrder
import PgBson.Dotted.Embedded
import PgBson.Dotted.Context
import PgBson.Dotted.Convert
import PgBson.Dotted.Meaning
